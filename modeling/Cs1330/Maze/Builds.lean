import Cs1330.Lib.LoopErasure
import Cs1330.Maze.Agreement

/-!
# The two builds of the solver

The `FULL` build prints a room on entry and again after every branch that failed, so its list is a
tour of the search tree; the `PRUNED` build follows the `next` pointers, which lead along first
steps of that tour. Erasing the loops of the one list gives the other, for walls of any kind.
-/

namespace Cs1330.Maze
open LoopErasure

variable {numRows numCols : Int} {start goal c d : Cell} {maze maze' maze₁ maze₂ : Rooms} {walk before trail trail' : List Cell}
  {R : Cell → Cell → Prop} {found : Int} {depth : Nat} {file file' : CString}
  {search : Int → Int → Rooms × CString → Option (Int × Rooms × CString)}

/-- The rooms of a walk are visited. -/
def Seen (numRows numCols : Int) (maze : Rooms) (walk : List Cell) : Prop :=
  ∀ d ∈ walk, d ∈ grid numRows numCols ∧ (maze d).visited = 1

/-- What is printed when a search from `c` returns. -/
structure Toured (numRows numCols : Int) (R : Cell → Cell → Prop) (goal : Cell) (maze : Rooms) (walk : List Cell) (c : Cell)
    (found : Int) : Prop where
  tour : Tour R walk
  failed : found = 0 → Seen numRows numCols maze walk ∧ ∃ before, walk = before ++ [c]
  succeeded : found = 1 → walk.getLast? = some goal ∧ ∃ trail, Trail maze c trail ∧ (c :: trail).IsChain (Entered walk)

/-- What a search from a room that was not printed yet prints. -/
def Tours (numRows numCols : Int) (R : Cell → Cell → Prop) (goal : Cell)
    (search : Int → Int → Rooms × CString → Option (Int × Rooms × CString)) (depth : Nat) : Prop :=
  ∀ (maze : Rooms) (file : CString) (c : Cell) (before : List Cell) (found : Int) (maze' : Rooms) (file' : CString),
    c ∈ grid numRows numCols → Ready numRows numCols goal maze → (maze c).visited = 0 →
    (unvisited numRows numCols maze).card < depth → (∀ a b, Passage numRows numCols maze a b → R a b) →
    Seen numRows numCols maze before → Tour R (before ++ [c]) → search c.1 c.2 (maze, file) = some (found, maze', file') →
    ∃ more, file' = file ++ (c :: more).flatMap line ∧ Toured numRows numCols R goal maze' (before ++ c :: more) c found

/-! ### The loop in one room -/

theorem Trying.tours (searches : Searches true numRows numCols goal search depth)
    (tours : Tours numRows numCols R goal search depth) (recorded : ∀ a b, Passage numRows numCols maze a b → R a b) :
    ∀ (rest : List Direction) (maze₁ : Rooms) (file : CString) (trail before : List Cell),
      Trying numRows numCols goal maze maze₁ c rest trail → (unvisited numRows numCols maze₁).card < depth →
      Seen numRows numCols maze₁ (before ++ [c]) → Tour R (before ++ [c]) →
      tryDirections true numRows numCols search c rest (maze₁, file) = some (found, maze', file') →
      ∃ more, file' = file ++ more.flatMap line ∧ Toured numRows numCols R goal maze' (before ++ [c] ++ more) c found := by
  intro rest
  induction rest with
  | nil =>
    intro maze₁ file trail before trying _ seen tour run
    cases run
    refine ⟨[], by simp, ?_⟩
    rw [List.append_nil]
    exact ⟨tour, fun _ => ⟨seen, before, rfl⟩, fun impossible => absurd impossible (by decide)⟩
  | cons dir rest ih =>
    intro maze₁ file trail before trying enough seen tour run
    rcases trying.round searches enough file with
      ⟨skips, trying⟩ | ⟨hit, maze₂, file₂, rest', passage, ready, unvisited, count, searched, _, branch⟩
    · rw [skips] at run
      exact ih maze₁ file trail before trying enough seen tour run
    · have new : move dir c ∉ before ++ [c] := by
        intro member
        have visited := (seen _ member).2
        omega
      have fresh : (setNext maze₁ c (move dir c) (move dir c)).visited = 0 := by
        rw [visited_setNext]
        exact unvisited
      have still : Seen numRows numCols (setNext maze₁ c (move dir c)) (before ++ [c]) := by
        intro e member
        rw [visited_setNext]
        exact seen e member
      obtain ⟨more, printed, toured⟩ := tours _ file (move dir c) (before ++ [c]) hit maze₂ file₂ passage.2.1 ready fresh count
        (fun a b open_ => recorded a b ((trying.explored.walls.trans sameWalls_setNext).passage open_)) still
        (tour.enter (recorded _ _ passage) new) searched
      have first : Entered (before ++ [c] ++ move dir c :: more) c (move dir c) := by
        have entered := (entered_new new).append more
        rwa [List.append_assoc _ [_] more] at entered
      rcases branch with ⟨rfl, ends, route⟩ | ⟨rfl, goesOn, trying, enough⟩
      · rw [ends] at run
        cases run
        obtain ⟨isLast, trail, follows, steps⟩ := toured.succeeded rfl
        refine ⟨move dir c :: more, printed, toured.tour, fun impossible => absurd impossible (by decide),
          fun _ => ⟨isLast, move dir c :: trail, ?_, ?_⟩⟩
        · exact ⟨route.route.follows.1, follows⟩
        · exact List.isChain_cons_cons.mpr ⟨first, steps⟩
      · rw [goesOn] at run
        obtain ⟨seen, earlier, same⟩ := toured.failed rfl
        -- The room is printed again: a step back over the one that led to the branch.
        have back : Tour R (before ++ [c] ++ move dir c :: more ++ [c]) := by
          have tour := toured.tour
          rw [same] at tour first ⊢
          exact tour.back first
        have seen' : Seen numRows numCols maze₂ (before ++ [c] ++ move dir c :: more ++ [c]) := by
          intro e member
          rcases List.mem_append.mp member with earlier | last
          · exact seen e earlier
          · obtain rfl := List.mem_singleton.mp last
            exact ⟨trying.inside, trying.entered⟩
        obtain ⟨later, rest, toured⟩ := ih maze₂ _ _ _ trying enough seen' back run
        refine ⟨move dir c :: more ++ [c] ++ later, ?_, ?_⟩
        · rw [rest, printed]
          simp
        · have whole : before ++ [c] ++ (move dir c :: more ++ [c] ++ later) =
              before ++ [c] ++ move dir c :: more ++ [c] ++ later := by simp
          rw [whole]
          exact toured

theorem dfs_tours (goal : Cell) (depth : Nat) : Tours numRows numCols R goal (dfs true numRows numCols goal depth) depth := by
  induction depth with
  | zero =>
    intro maze file c before found maze' file' _ _ _ enough
    omega
  | succ depth ih =>
    intro maze file c before found maze' file' inside ready fresh enough recorded seen tour run
    rw [dfs] at run
    by_cases isGoal : c.1 = goal.1 ∧ c.2 = goal.2
    · rw [if_pos isGoal] at run
      obtain rfl : c = goal := Prod.ext isGoal.1 isGoal.2
      cases run
      exact ⟨[], by simp, tour, fun impossible => absurd impossible (by decide),
        fun _ => ⟨by simp, [], ready.fresh c inside fresh, .singleton c⟩⟩
    · rw [if_neg isGoal] at run
      have notGoal : c ≠ goal := fun equal => isGoal ⟨congrArg Prod.fst equal, congrArg Prod.snd equal⟩
      have trying := Trying.start inside ready fresh notGoal [.north, .south, .east, .west]
        (fun dir => by cases dir <;> simp)
      have less := card_unvisited_lt inside fresh
      have seen' : Seen numRows numCols (setVisited maze c) (before ++ [c]) := by
        intro e member
        rw [visited_setVisited]
        rcases List.mem_append.mp member with earlier | last
        · split
          · exact ⟨(seen e earlier).1, rfl⟩
          · exact seen e earlier
        · obtain rfl := List.mem_singleton.mp last
          rw [if_pos rfl]
          exact ⟨inside, rfl⟩
      obtain ⟨more, printed, toured⟩ := trying.tours (dfs_searches true goal depth) ih recorded _ _ _ _ before (by omega) seen'
        tour run
      refine ⟨more, ?_, ?_⟩
      · rw [printed]
        simp
      · rwa [← List.append_cons] at toured

/-! ### The same search in both builds -/

/-- The result and the maze, without the file. -/
def outcome (result : Int × Rooms × CString) : Int × Rooms := (result.1, result.2.1)

theorem tryDirections_builds {search' : Int → Int → Rooms × CString → Option (Int × Rooms × CString)}
    (same : ∀ row col maze file file', (search row col (maze, file)).map outcome = (search' row col (maze, file')).map outcome)
    (rest : List Direction) : ∀ maze file file',
      (tryDirections true numRows numCols search c rest (maze, file)).map outcome =
        (tryDirections false numRows numCols search' c rest (maze, file')).map outcome := by
  induction rest with
  | nil => exact fun _ _ _ => rfl
  | cons dir rest ih =>
    intro maze file file'
    rw [tryDirections, tryDirections]
    cases getNeighbor numRows numCols (maze c) dir with
    | none => exact ih maze file file'
    | some neighbor =>
      simp only
      by_cases enter : (maze neighbor).visited = 0 ∧ (maze c).side dir = 0
      · rw [if_pos enter, if_pos enter]
        have branch := same (setNext maze c neighbor neighbor).row (setNext maze c neighbor neighbor).col
          (setNext maze c neighbor) file file'
        cases full : search (setNext maze c neighbor neighbor).row (setNext maze c neighbor neighbor).col
            (setNext maze c neighbor, file) with
        | none =>
          rw [full] at branch
          rw [Option.map_eq_none_iff.mp branch.symm]
          rfl
        | some result =>
          rw [full] at branch
          obtain ⟨result', pruned, agree⟩ := Option.map_eq_some_iff.mp branch.symm
          rw [pruned]
          obtain ⟨found, maze₁, file₁⟩ := result
          obtain ⟨found', maze₂, file₂⟩ := result'
          obtain ⟨rfl, rfl⟩ := Prod.mk.inj agree
          show Option.map outcome (if found' = 1 then _ else _) = Option.map outcome (if found' = 1 then _ else _)
          by_cases hit : found' = 1
          · rw [if_pos hit, if_pos hit]
            rfl
          · rw [if_neg hit, if_neg hit]
            exact ih _ _ _
      · rw [if_neg enter, if_neg enter]
        exact ih maze file file'

theorem dfs_builds (numRows numCols : Int) (goal : Cell) (depth : Nat) : ∀ row col maze file file',
    (dfs true numRows numCols goal depth row col (maze, file)).map outcome =
      (dfs false numRows numCols goal depth row col (maze, file')).map outcome := by
  induction depth with
  | zero => exact fun _ _ _ _ _ => rfl
  | succ depth ih =>
    intro row col maze file file'
    rw [dfs, dfs]
    by_cases isGoal : row = goal.1 ∧ col = goal.2
    · rw [if_pos isGoal, if_pos isGoal]
      rfl
    · rw [if_neg isGoal, if_neg isGoal]
      exact tryDirections_builds ih _ _ _ _

theorem Trail.unique (follows : Trail maze c trail) (again : Trail maze c trail') : trail = trail' := by
  induction trail generalizing c trail' with
  | nil =>
    cases trail' with
    | nil => rfl
    | cons d rest => cases follows.symm.trans again.1
  | cons d rest ih =>
    cases trail' with
    | nil => cases follows.1.symm.trans again
    | cons e rest' =>
      obtain rfl := Option.some.inj (follows.1.symm.trans again.1)
      rw [ih follows.2 again.2]

/-- Both builds on a maze that is ready to be searched, with any walls, when the goal is found: the
`FULL` list is a walk from the start to the goal, each step through an opening of the room from
which the other one was entered, and erasing its loops gives the `PRUNED` list. -/
theorem full_erases_to_pruned (indexed : ∀ c ∈ grid numRows numCols, (maze c).row = c.1 ∧ (maze c).col = c.2)
    (blank : ∀ c ∈ grid numRows numCols, (maze c).visited = 0 ∧ (maze c).next = none)
    (startInside : start ∈ grid numRows numCols) (goalInside : goal ∈ grid numRows numCols)
    (enough : (numRows * numCols).toNat < depth)
    (hit : dfs false numRows numCols goal depth start.1 start.2 (maze, text "PRUNED\n") = some (1, maze', file)) :
    ∃ maze'' full pruned,
      dfs true numRows numCols goal depth start.1 start.2 (maze, text "FULL\n") =
        some (1, maze'', text "FULL\n" ++ full.flatMap line) ∧
      printPrunedPath maze' depth (some start) file = some (text "PRUNED\n" ++ pruned.flatMap line) ∧
      full.head? = some start ∧ full.getLast? = some goal ∧
      (full.IsChain fun a b => Entered full a b ∧ Passage numRows numCols maze a b ∨
        Entered full b a ∧ Passage numRows numCols maze b a) ∧
      ∀ path, Erasure full path ↔ path = pruned := by
  have cardinal := card_grid_of_mem startInside
  have ready : Ready numRows numCols goal maze :=
    ⟨indexed, fun c inside => .inl (blank c inside).1, (blank goal goalInside).1, fun c inside _ => (blank c inside).2⟩
  have count : (unvisited numRows numCols maze).card < depth :=
    Nat.lt_of_le_of_lt (Finset.card_filter_le _ _) (by omega)
  obtain ⟨found, last, pathFile, trail, run, searched, quiet⟩ :=
    dfs_searches false goal depth maze (text "PRUNED\n") start startInside ready (blank start startInside).1 count
  obtain ⟨rfl, same⟩ := Prod.mk.inj (Option.some.inj (hit.symm.trans run))
  obtain ⟨rfl, rfl⟩ := Prod.mk.inj same
  have agree := dfs_builds numRows numCols goal depth start.1 start.2 maze (text "FULL\n") (text "PRUNED\n")
  rw [hit] at agree
  obtain ⟨⟨found, maze'', fullFile⟩, fullRun, result⟩ := Option.map_eq_some_iff.mp agree
  change (found, maze'') = (1, maze') at result
  obtain ⟨rfl, rfl⟩ := Prod.mk.inj result
  obtain ⟨more, printed, toured⟩ := dfs_tours goal depth maze (text "FULL\n") start [] _ _ _ startInside ready
    (blank start startInside).1 count (fun _ _ passage => passage) (by simp [Seen]) (.start start) fullRun
  obtain ⟨isLast, trail', follows, steps⟩ := toured.succeeded rfl
  obtain rfl := follows.unique searched.route.follows
  have walked : ∀ a b, Entered (start :: more) a b → Passage numRows numCols maze a b := fun _ _ => toured.tour.entered
  have ends : (start :: trail').getLast? = some goal := by
    rcases searched.outcome with ⟨_, isGoal⟩ | ⟨missed, _⟩
    · exact isGoal
    · cases missed
  refine ⟨maze'', start :: more, start :: trail', by rw [fullRun, printed], ?_, rfl, isLast, ?_, ?_⟩
  · have length := searched.route.length_lt
    rw [searched.prints (by omega), quiet rfl]
  · apply toured.tour.isChain.imp
    rintro a b (entered | entered)
    · exact .inl ⟨entered, walked a b entered⟩
    · exact .inr ⟨entered, walked b a entered⟩
  · exact toured.tour.erasure_iff searched.route.distinct steps rfl (ends.trans isLast.symm)

/-- Two rooms side by side over two others: the first is open to the right and downwards, and the one below it
has a wall where the first has none. -/
def deadEnd : Rooms := fun c =>
  ⟨c.1, c.2, 0, 1, if c = (0, 0) then 0 else 1, 1, if c = (0, 0) then 0 else 1, none⟩

theorem full_erases_to_pruned_deadEnd : ∃ maze' file maze'' full pruned,
    dfs false 2 2 (0, 1) 5 0 0 (deadEnd, text "PRUNED\n") = some (1, maze', file) ∧
    dfs true 2 2 (0, 1) 5 0 0 (deadEnd, text "FULL\n") = some (1, maze'', text "FULL\n" ++ full.flatMap line) ∧
    printPrunedPath maze' 5 (some (0, 0)) file = some (text "PRUNED\n" ++ pruned.flatMap line) ∧
    full.head? = some (0, 0) ∧ full.getLast? = some (0, 1) ∧ ∀ path, Erasure full path ↔ path = pruned := by
  have returns : (dfs false 2 2 (0, 1) 5 0 0 (deadEnd, text "PRUNED\n")).map (fun result => result.1) = some 1 := by
    decide +kernel
  obtain ⟨⟨found, maze', file⟩, hit, rfl⟩ := Option.map_eq_some_iff.mp returns
  have startInside : ((0, 0) : Cell) ∈ grid 2 2 := mem_grid.mpr (by decide)
  have goalInside : ((0, 1) : Cell) ∈ grid 2 2 := mem_grid.mpr (by decide)
  obtain ⟨maze'', full, pruned, fullRun, prunedRun, first, last, _, erasure⟩ := full_erases_to_pruned (fun _ _ => ⟨rfl, rfl⟩)
    (fun _ _ => ⟨rfl, rfl⟩) startInside goalInside (by decide) hit
  exact ⟨maze', file, maze'', full, pruned, hit, fullRun, prunedRun, first, last, erasure⟩

end Cs1330.Maze
