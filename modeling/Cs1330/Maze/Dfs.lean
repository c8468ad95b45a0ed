import Cs1330.Maze.Perfect
import Cs1330.Maze.Solver

/-!
# Depth-first search

What `dfs` does to any maze, whether its walls agree or not. Rooms visited before a call keep
everything; the rooms that the call visits can only be left towards visited ones, unless it comes
to the goal; and the `next` pointers from its room always lead along a simple path of new rooms,
to the goal when it was found. A failed branch leaves its pointers behind, but the next branch
starts by overwriting the one that leads to them.
-/

namespace Cs1330.Maze

/-- A step from `a` to `b` through a side that is open in `a`. -/
def Passage (numRows numCols : Int) (maze : Rooms) (a b : Cell) : Prop :=
  a ∈ grid numRows numCols ∧ b ∈ grid numRows numCols ∧ ∃ dir, move dir a = b ∧ (maze a).side dir = 0

/-- Following `next` from `c` visits the rooms of the list, in order, and stops. -/
def Trail (maze : Rooms) : Cell → List Cell → Prop
  | c, [] => (maze c).next = none
  | c, d :: rest => (maze c).next = some d ∧ Trail maze d rest

/-- Only `visited` and `next` may differ. -/
def SameWalls (maze maze' : Rooms) : Prop :=
  ∀ c, (maze' c).row = (maze c).row ∧ (maze' c).col = (maze c).col ∧ ∀ dir, (maze' c).side dir = (maze c).side dir

structure Ready (numRows numCols : Int) (goal : Cell) (maze : Rooms) : Prop where
  indexed : ∀ c ∈ grid numRows numCols, (maze c).row = c.1 ∧ (maze c).col = c.2
  flags : ∀ c ∈ grid numRows numCols, (maze c).visited = 0 ∨ (maze c).visited = 1
  goalFree : (maze goal).visited = 0
  fresh : ∀ c ∈ grid numRows numCols, (maze c).visited = 0 → (maze c).next = none

structure Explored (numRows numCols : Int) (goal : Cell) (maze maze' : Rooms) : Prop where
  walls : SameWalls maze maze'
  kept : ∀ c ∈ grid numRows numCols, (maze c).visited = 1 → maze' c = maze c
  ready : Ready numRows numCols goal maze'

/-- The pointers from `c`: a simple path of rooms that `maze` had not visited. -/
structure Route (numRows numCols : Int) (maze maze' : Rooms) (c : Cell) (trail : List Cell) : Prop where
  follows : Trail maze' c trail
  distinct : (c :: trail).Nodup
  passages : (c :: trail).IsChain (Passage numRows numCols maze)
  new : ∀ d ∈ c :: trail, d ∈ grid numRows numCols ∧ (maze d).visited = 0

/-- The rooms that `maze'` has visited and `maze` has not, `except` apart, lead nowhere else. -/
def Closed (numRows numCols : Int) (maze maze' : Rooms) (except : Cell → Prop) : Prop :=
  ∀ c ∈ grid numRows numCols, ¬except c → (maze' c).visited = 1 → (maze c).visited = 0 →
    ∀ d, Passage numRows numCols maze c d → (maze' d).visited = 1

structure Searched (numRows numCols : Int) (goal : Cell) (maze maze' : Rooms) (c : Cell) (found : Int)
    (trail : List Cell) : Prop where
  explored : Explored numRows numCols goal maze maze'
  route : Route numRows numCols maze maze' c trail
  outcome : found = 1 ∧ (c :: trail).getLast? = some goal ∨
    found = 0 ∧ (∀ d ∈ c :: trail, (maze' d).visited = 1) ∧ Closed numRows numCols maze maze' fun _ => False

variable {numRows numCols : Int} {goal c d : Cell} {maze maze₁ maze₂ maze₃ : Rooms} {trail rest' : List Cell}
  {dir : Direction} {rest : List Direction}

/-! ### Frames -/

theorem SameWalls.refl (maze : Rooms) : SameWalls maze maze := fun _ => ⟨rfl, rfl, fun _ => rfl⟩

theorem SameWalls.trans (first : SameWalls maze maze₁) (second : SameWalls maze₁ maze₂) : SameWalls maze maze₂ := by
  intro e
  obtain ⟨row, col, sides⟩ := first e
  obtain ⟨row', col', sides'⟩ := second e
  exact ⟨row'.trans row, col'.trans col, fun dir => (sides' dir).trans (sides dir)⟩

theorem SameWalls.passage (same : SameWalls maze maze₁) (passage : Passage numRows numCols maze₁ c d) :
    Passage numRows numCols maze c d := by
  obtain ⟨inside, next, dir, isNext, opened⟩ := passage
  exact ⟨inside, next, dir, isNext, ((same c).2.2 dir) ▸ opened⟩

theorem sameWalls_setVisited : SameWalls maze (setVisited maze c) := by
  intro e
  by_cases here : e = c
  · subst here
    rw [setVisited, Function.update_self]
    exact ⟨rfl, rfl, fun dir => by cases dir <;> rfl⟩
  · rw [setVisited, Function.update_of_ne here]
    exact ⟨rfl, rfl, fun _ => rfl⟩

theorem sameWalls_setNext : SameWalls maze (setNext maze c d) := by
  intro e
  by_cases here : e = c
  · subst here
    rw [setNext, Function.update_self]
    exact ⟨rfl, rfl, fun dir => by cases dir <;> rfl⟩
  · rw [setNext, Function.update_of_ne here]
    exact ⟨rfl, rfl, fun _ => rfl⟩

theorem setNext_other (different : d ≠ c) (next : Cell) : setNext maze c next d = maze d :=
  Function.update_of_ne different _ _

theorem visited_setNext (next : Cell) : (setNext maze c next d).visited = (maze d).visited := by
  by_cases here : d = c
  · subst here
    rw [setNext, Function.update_self]
  · rw [setNext_other here]

theorem Ready.walls (ready : Ready numRows numCols goal maze) (walls : SameWalls maze maze₁)
    (inside : c ∈ grid numRows numCols) : (maze₁ c).row = c.1 ∧ (maze₁ c).col = c.2 := by
  obtain ⟨row, col⟩ := ready.indexed c inside
  exact ⟨(walls c).1.trans row, (walls c).2.1.trans col⟩

theorem Ready.setNext (ready : Ready numRows numCols goal maze) (visited : (maze c).visited = 1) (next : Cell) :
    Ready numRows numCols goal (Maze.setNext maze c next) := by
  refine ⟨fun e inside => ready.walls sameWalls_setNext inside, ?_, ?_, ?_⟩
  · intro e inside
    rw [visited_setNext]
    exact ready.flags e inside
  · rw [visited_setNext]
    exact ready.goalFree
  · intro e inside unvisited
    rw [visited_setNext] at unvisited
    have different : e ≠ c := by
      rintro rfl
      omega
    rw [setNext_other different]
    exact ready.fresh e inside unvisited

theorem Ready.setVisited (ready : Ready numRows numCols goal maze) (notGoal : c ≠ goal) :
    Ready numRows numCols goal (Maze.setVisited maze c) := by
  refine ⟨fun e inside => ready.walls sameWalls_setVisited inside, ?_, ?_, ?_⟩
  · intro e inside
    rw [visited_setVisited]
    split
    · exact Or.inr rfl
    · exact ready.flags e inside
  · rw [visited_setVisited, if_neg notGoal.symm]
    exact ready.goalFree
  · intro e inside unvisited
    rw [visited_setVisited] at unvisited
    split at unvisited
    · omega
    · rename_i different
      rw [Maze.setVisited, Function.update_of_ne different]
      exact ready.fresh e inside unvisited

theorem Explored.visited (explored : Explored numRows numCols goal maze maze₁) (inside : c ∈ grid numRows numCols)
    (visited : (maze c).visited = 1) : (maze₁ c).visited = 1 := by
  rw [explored.kept c inside visited]
  exact visited

theorem Explored.unvisited (explored : Explored numRows numCols goal maze maze₁)
    (ready : Ready numRows numCols goal maze) (inside : c ∈ grid numRows numCols) (unvisited : (maze₁ c).visited = 0) :
    (maze c).visited = 0 := by
  apply (ready.flags c inside).resolve_right
  intro visited
  have still := explored.visited inside visited
  omega

/-! ### The loop in one room -/

/-- The loop of `dfs` in room `c`, with the directions in `rest` still to be tried. -/
structure Trying (numRows numCols : Int) (goal : Cell) (maze maze₁ : Rooms) (c : Cell) (rest : List Direction)
    (trail : List Cell) : Prop where
  before : Ready numRows numCols goal maze
  explored : Explored numRows numCols goal maze maze₁
  entered : (maze₁ c).visited = 1
  route : Route numRows numCols maze maze₁ c trail
  seen : ∀ d ∈ c :: trail, (maze₁ d).visited = 1
  closed : Closed numRows numCols maze maze₁ fun e => e = c
  tried : ∀ dir, dir ∉ rest → move dir c ∈ grid numRows numCols → (maze c).side dir = 0 →
    (maze₁ (move dir c)).visited = 1

theorem Trying.inside (trying : Trying numRows numCols goal maze maze₁ c rest trail) : c ∈ grid numRows numCols :=
  (trying.route.new c List.mem_cons_self).1

theorem Trying.skip (trying : Trying numRows numCols goal maze maze₁ c (dir :: rest) trail)
    (useless : move dir c ∈ grid numRows numCols → (maze c).side dir = 0 → (maze₁ (move dir c)).visited = 1) :
    Trying numRows numCols goal maze maze₁ c rest trail := by
  refine { trying with tried := ?_ }
  intro dir' done inside opened
  by_cases same : dir' = dir
  · subst same
    exact useless inside opened
  · exact trying.tried dir' (by simp [same, done]) inside opened

theorem Trying.failed (trying : Trying numRows numCols goal maze maze₁ c [] trail) :
    Searched numRows numCols goal maze maze₁ c 0 trail := by
  refine ⟨trying.explored, trying.route, Or.inr ⟨rfl, trying.seen, ?_⟩⟩
  intro e inside _ visited unvisited d passage
  by_cases here : e = c
  · subst here
    obtain ⟨_, next, dir, rfl, opened⟩ := passage
    exact trying.tried dir List.not_mem_nil next opened
  · exact trying.closed e inside here visited unvisited d passage

variable {found : Int}

section
variable (trying : Trying numRows numCols goal maze maze₁ c (dir :: rest) trail)
  (searched : Searched numRows numCols goal (setNext maze₁ c (move dir c)) maze₂ (move dir c) found rest')

include trying searched

theorem Trying.explored_branch : Explored numRows numCols goal maze maze₂ := by
  refine ⟨trying.explored.walls.trans (sameWalls_setNext.trans searched.explored.walls), ?_, searched.explored.ready⟩
  intro e inside visited
  have different : e ≠ c := by
    rintro rfl
    have new := (trying.route.new e List.mem_cons_self).2
    omega
  have same : setNext maze₁ c (move dir c) e = maze e := by
    rw [setNext_other different, trying.explored.kept e inside visited]
  rw [searched.explored.kept e inside (by rwa [same]), same]

/-- The pointer to the branch and the pointers within it. -/
theorem Trying.route_branch (opened : (maze c).side dir = 0) : Route numRows numCols maze maze₂ c (move dir c :: rest') := by
  have inside := trying.inside
  have entered : (setNext maze₁ c (move dir c) c).visited = 1 := by
    rw [visited_setNext]
    exact trying.entered
  have room : maze₂ c = setNext maze₁ c (move dir c) c := searched.explored.kept c inside entered
  have next := searched.route.new _ List.mem_cons_self
  refine ⟨⟨?_, searched.route.follows⟩, ?_, ?_, ?_⟩
  · rw [room, setNext, Function.update_self]
  · refine List.nodup_cons.mpr ⟨fun member => ?_, searched.route.distinct⟩
    have new := (searched.route.new c member).2
    omega
  · refine List.isChain_cons_cons.mpr ⟨⟨inside, next.1, dir, rfl, opened⟩, ?_⟩
    exact searched.route.passages.imp fun _ _ passage =>
      (trying.explored.walls.trans sameWalls_setNext).passage passage
  · intro e member
    rcases List.mem_cons.mp member with rfl | member
    · exact trying.route.new e List.mem_cons_self
    · obtain ⟨eInside, new⟩ := searched.route.new e member
      rw [visited_setNext] at new
      exact ⟨eInside, trying.explored.unvisited trying.before eInside new⟩

theorem Trying.after (opened : (maze c).side dir = 0) (missed : found = 0) :
    Trying numRows numCols goal maze maze₂ c rest (move dir c :: rest') := by
  have explored := trying.explored_branch searched
  rcases searched.outcome with ⟨isOne, _⟩ | ⟨_, seen, closed⟩
  · omega
  · have inside := trying.inside
    have later : ∀ e ∈ grid numRows numCols, (maze₁ e).visited = 1 → (maze₂ e).visited = 1 := by
      intro e eInside visited
      apply searched.explored.visited eInside
      rwa [visited_setNext]
    refine ⟨trying.before, explored, later c inside trying.entered, trying.route_branch searched opened, ?_, ?_, ?_⟩
    · intro e member
      rcases List.mem_cons.mp member with rfl | member
      · exact later e inside trying.entered
      · exact seen e member
    · intro e eInside different visited unvisited d passage
      rcases trying.explored.ready.flags e eInside with new | old
      · apply closed e eInside (fun impossible => impossible) visited (by rwa [visited_setNext])
        obtain ⟨_, dInside, dir', isNext, side⟩ := passage
        refine ⟨eInside, dInside, dir', isNext, ?_⟩
        rw [(sameWalls_setNext e).2.2 dir', (trying.explored.walls e).2.2 dir']
        exact side
      · exact later d passage.2.1 (trying.closed e eInside different old unvisited d passage)
    · intro dir' done next opened'
      by_cases same : dir' = dir
      · subst same
        exact seen _ List.mem_cons_self
      · exact later _ next (trying.tried dir' (by simp [same, done]) next opened')

theorem Trying.succeeded (opened : (maze c).side dir = 0) (hit : found = 1) :
    Searched numRows numCols goal maze maze₂ c 1 (move dir c :: rest') := by
  refine ⟨trying.explored_branch searched, trying.route_branch searched opened, Or.inl ⟨rfl, ?_⟩⟩
  rcases searched.outcome with ⟨_, isLast⟩ | ⟨isZero, _⟩
  · rw [List.getLast?_cons_cons]
    exact isLast
  · omega

end

/-- What a search from an unvisited room does, with enough depth left. -/
def Searches (full : Bool) (numRows numCols : Int) (goal : Cell)
    (search : Int → Int → Rooms × CString → Option (Int × Rooms × CString)) (depth : Nat) : Prop :=
  ∀ (maze : Rooms) (file : CString) (c : Cell), c ∈ grid numRows numCols → Ready numRows numCols goal maze →
    (maze c).visited = 0 → (unvisited numRows numCols maze).card < depth →
    ∃ found maze' file' trail, search c.1 c.2 (maze, file) = some (found, maze', file') ∧
      Searched numRows numCols goal maze maze' c found trail ∧ (full = false → file' = file)

variable {full : Bool} {depth : Nat} {search : Int → Int → Rooms × CString → Option (Int × Rooms × CString)}

/-- One round of the loop: the direction is of no use, or its room is searched from and the goal is
found there or not. -/
theorem Trying.round (searches : Searches full numRows numCols goal search depth)
    (trying : Trying numRows numCols goal maze maze₁ c (dir :: rest) trail)
    (enough : (unvisited numRows numCols maze₁).card < depth) (file : CString) :
    (tryDirections full numRows numCols search c (dir :: rest) (maze₁, file) =
        tryDirections full numRows numCols search c rest (maze₁, file) ∧
      Trying numRows numCols goal maze maze₁ c rest trail) ∨
    ∃ found maze₂ file₂ rest', Passage numRows numCols maze c (move dir c) ∧
      Ready numRows numCols goal (setNext maze₁ c (move dir c)) ∧ (maze₁ (move dir c)).visited = 0 ∧
      (unvisited numRows numCols (setNext maze₁ c (move dir c))).card < depth ∧
      search (move dir c).1 (move dir c).2 (setNext maze₁ c (move dir c), file) = some (found, maze₂, file₂) ∧
      (full = false → file₂ = file) ∧
      (found = 1 ∧ tryDirections full numRows numCols search c (dir :: rest) (maze₁, file) = some (1, maze₂, file₂) ∧
          Searched numRows numCols goal maze maze₂ c 1 (move dir c :: rest') ∨
        found = 0 ∧ tryDirections full numRows numCols search c (dir :: rest) (maze₁, file) =
            tryDirections full numRows numCols search c rest (maze₂, if full then file₂ ++ line c else file₂) ∧
          Trying numRows numCols goal maze maze₂ c rest (move dir c :: rest') ∧
          (unvisited numRows numCols maze₂).card < depth) := by
  have inside := trying.inside
  obtain ⟨row, col⟩ := trying.explored.ready.indexed c inside
  have neighbor : getNeighbor numRows numCols (maze₁ c) dir =
      if move dir c ∈ grid numRows numCols then some (move dir c) else none := getNeighbor_eq inside row col
  have sameSide := (trying.explored.walls c).2.2 dir
  rw [tryDirections]
  by_cases next : move dir c ∈ grid numRows numCols
  · rw [neighbor, if_pos next]
    simp only
    by_cases enter : (maze₁ (move dir c)).visited = 0 ∧ (maze₁ c).side dir = 0
    · rw [if_pos enter]
      have opened : (maze c).side dir = 0 := sameSide.symm.trans enter.2
      have ready := trying.explored.ready.setNext trying.entered (move dir c)
      have fresh : (setNext maze₁ c (move dir c) (move dir c)).visited = 0 := by
        rw [visited_setNext]
        exact enter.1
      have count : (unvisited numRows numCols (setNext maze₁ c (move dir c))).card < depth := by
        refine Nat.lt_of_le_of_lt (card_unvisited_le fun e _ still => ?_) enough
        rwa [visited_setNext] at still
      obtain ⟨found, maze₂, file₂, rest', run, searched, quiet⟩ :=
        searches (setNext maze₁ c (move dir c)) file (move dir c) next ready fresh count
      obtain ⟨nextRow, nextCol⟩ := ready.indexed (move dir c) next
      rw [nextRow, nextCol, run]
      refine .inr ⟨found, maze₂, file₂, rest', ⟨inside, next, dir, rfl, opened⟩, ready, enter.1, count, rfl, quiet, ?_⟩
      by_cases hit : found = 1
      · refine .inl ⟨hit, ?_, trying.succeeded searched opened hit⟩
        show (if found = 1 then _ else _) = _
        rw [if_pos hit]
        rfl
      · have missed : found = 0 := by
          rcases searched.outcome with ⟨isOne, _⟩ | ⟨isZero, _⟩
          · exact absurd isOne hit
          · exact isZero
        refine .inr ⟨missed, ?_, trying.after searched opened missed, ?_⟩
        · show (if found = 1 then _ else _) = _
          rw [if_neg hit]
        · refine Nat.lt_of_le_of_lt (card_unvisited_le fun e eInside still => ?_) count
          exact searched.explored.unvisited ready eInside still
    · rw [if_neg enter]
      refine .inl ⟨rfl, trying.skip fun _ opened => ?_⟩
      have opened₁ : (maze₁ c).side dir = 0 := sameSide.trans opened
      exact (trying.explored.ready.flags _ next).resolve_left fun unvisited => enter ⟨unvisited, opened₁⟩
  · rw [neighbor, if_neg next]
    exact .inl ⟨rfl, trying.skip fun impossible => absurd impossible next⟩

theorem Trying.loop (searches : Searches full numRows numCols goal search depth) :
    ∀ (rest : List Direction) (maze₁ : Rooms) (file : CString) (trail : List Cell),
      Trying numRows numCols goal maze maze₁ c rest trail → (unvisited numRows numCols maze₁).card < depth →
      ∃ found maze' file' trail', tryDirections full numRows numCols search c rest (maze₁, file) =
          some (found, maze', file') ∧
        Searched numRows numCols goal maze maze' c found trail' ∧ (full = false → file' = file) := by
  intro rest
  induction rest with
  | nil =>
    intro maze₁ file trail trying _
    exact ⟨0, maze₁, file, trail, rfl, trying.failed, fun _ => rfl⟩
  | cons dir rest ih =>
    intro maze₁ file trail trying enough
    rcases trying.round searches enough file with ⟨skips, trying⟩ | ⟨_, maze₂, file₂, _, _, _, _, _, _, quiet, branch⟩
    · rw [skips]
      exact ih maze₁ file trail trying enough
    · rcases branch with ⟨_, ends, searched⟩ | ⟨_, goesOn, trying, enough⟩
      · exact ⟨1, maze₂, file₂, _, ends, searched, quiet⟩
      · obtain ⟨found', maze', file', trail', run, searched, quiet'⟩ :=
          ih maze₂ (if full then file₂ ++ line c else file₂) _ trying enough
        refine ⟨found', maze', file', trail', goesOn.trans run, searched, fun isPruned => ?_⟩
        rw [quiet' isPruned, isPruned]
        exact quiet isPruned

theorem Trying.start (inside : c ∈ grid numRows numCols) (ready : Ready numRows numCols goal maze)
    (fresh : (maze c).visited = 0) (notGoal : c ≠ goal) (directions : List Direction)
    (complete : ∀ dir, dir ∈ directions) :
    Trying numRows numCols goal maze (setVisited maze c) c directions [] := by
  have other : ∀ e, e ≠ c → setVisited maze c e = maze e := fun e different => Function.update_of_ne different _ _
  have entered : (setVisited maze c c).visited = 1 := by
    rw [visited_setVisited, if_pos rfl]
  refine ⟨ready, ⟨sameWalls_setVisited, ?_, ready.setVisited notGoal⟩, entered, ⟨?_, by simp, by simp, ?_⟩, ?_, ?_, ?_⟩
  · intro e eInside visited
    apply other
    rintro rfl
    omega
  · rw [Trail, setVisited, Function.update_self]
    exact ready.fresh c inside fresh
  · intro e member
    obtain rfl := List.mem_singleton.mp member
    exact ⟨inside, fresh⟩
  · intro e member
    obtain rfl := List.mem_singleton.mp member
    exact entered
  · intro e _ different visited unvisited
    rw [other e different] at visited
    omega
  · exact fun dir missing => absurd (complete dir) missing

theorem dfs_searches (full : Bool) (goal : Cell) (depth : Nat) :
    Searches full numRows numCols goal (dfs full numRows numCols goal depth) depth := by
  induction depth with
  | zero =>
    intro maze file c inside ready fresh enough
    omega
  | succ depth ih =>
    intro maze file c inside ready fresh enough
    rw [dfs]
    by_cases isGoal : c.1 = goal.1 ∧ c.2 = goal.2
    · rw [if_pos isGoal]
      obtain rfl : c = goal := Prod.ext isGoal.1 isGoal.2
      refine ⟨1, maze, _, [], rfl, ⟨⟨SameWalls.refl maze, fun _ _ _ => rfl, ready⟩, ⟨?_, by simp, by simp, ?_⟩,
        Or.inl ⟨rfl, rfl⟩⟩, fun isPruned => by simp [isPruned]⟩
      · exact ready.fresh c inside fresh
      · intro e member
        obtain rfl := List.mem_singleton.mp member
        exact ⟨inside, fresh⟩
    · rw [if_neg isGoal]
      have notGoal : c ≠ goal := fun equal => isGoal ⟨congrArg Prod.fst equal, congrArg Prod.snd equal⟩
      have trying := Trying.start inside ready fresh notGoal [.north, .south, .east, .west]
        (fun dir => by cases dir <;> simp)
      have less := card_unvisited_lt inside fresh
      obtain ⟨found, maze', file', trail, run, searched, quiet⟩ :=
        trying.loop ih _ _ (if full then file ++ line c else file) _ (by omega)
      refine ⟨found, maze', file', trail, run, searched, fun isPruned => ?_⟩
      rw [quiet isPruned, isPruned]
      rfl

end Cs1330.Maze
