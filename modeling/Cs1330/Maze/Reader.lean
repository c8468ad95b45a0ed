import Mathlib.Data.List.DropRight
import Cs1330.Maze.File

/-!
# What the reader accepts

`read_encoded_maze_from_file` on any content. Each `fscanf` takes the next character that is not
whitespace; it stops the loop only at the end of the input. A character that is no digit is stored
as whatever the variable held, and it stays in the input unless it is a sign.
-/

namespace Cs1330.Maze

variable {numRows numCols : Int} {content input rest : CString} {list : List Cell} {c : UInt8}

/-- The characters that `%1x` does not skip. -/
def tokens (content : CString) : CString := content.filter fun c => !isspace c

/-- The content begins with `count` digits, with any whitespace before each. -/
def BeginsWithDigits (count : Nat) (content : CString) : Prop :=
  count ≤ (tokens content).length ∧ ∀ c ∈ (tokens content).take count, (hexValue c).isSome

/-- Not enough characters, and none that would be left in the input. -/
def RunsOut (count : Nat) (content : CString) : Prop :=
  (tokens content).length < count ∧ ∀ c ∈ tokens content, (hexValue c).isSome ∨ c = byte '+' ∨ c = byte '-'

instance (count : Nat) (content : CString) : Decidable (BeginsWithDigits count content) := inferInstanceAs (Decidable (_ ∧ _))

instance (count : Nat) (content : CString) : Decidable (RunsOut count content) := inferInstanceAs (Decidable (_ ∧ _))

/-! ### One character -/

theorem tokens_nil (ended : input.dropWhile isspace = []) : tokens input = [] := by
  rw [tokens, List.filter_eq_nil_iff]
  intro c member
  simpa using List.dropWhile_eq_nil_iff.mp ended c member

theorem tokens_cons (found : input.dropWhile isspace = c :: rest) : tokens input = c :: tokens rest := by
  have visible : isspace c = false := by
    have head := List.head?_dropWhile_not isspace input
    rw [found] at head
    simpa using head
  have skipped : ∀ d ∈ input.takeWhile isspace, ¬(!isspace d) = true := by
    intro d member
    simpa using List.mem_takeWhile_imp member
  have split : input.takeWhile isspace ++ c :: rest = input := by
    rw [← found]
    exact List.takeWhile_append_dropWhile
  rw [tokens, ← split, List.filter_append, List.filter_eq_nil_iff.mpr skipped, List.nil_append,
    List.filter_cons_of_pos (by simp [visible])]
  rfl

theorem fscanf1x_cases (input : CString) :
    (tokens input = [] ∧ fscanf1x input = (-1, none, [])) ∨
    ∃ c rest, tokens input = c :: tokens rest ∧
      ((∃ value, hexValue c = some value ∧ fscanf1x input = (1, some value, rest)) ∨
        (hexValue c = none ∧ (c = byte '+' ∨ c = byte '-') ∧ fscanf1x input = (0, none, rest)) ∨
        hexValue c = none ∧ ¬(c = byte '+' ∨ c = byte '-') ∧
          ∃ again, tokens again = c :: tokens rest ∧ fscanf1x input = (0, none, again)) := by
  unfold fscanf1x
  cases found : input.dropWhile isspace with
  | nil => exact .inl ⟨tokens_nil found, rfl⟩
  | cons c rest =>
    refine .inr ⟨c, rest, tokens_cons found, ?_⟩
    cases digit : hexValue c with
    | some value => exact .inl ⟨value, rfl, by simp only [digit]⟩
    | none =>
      by_cases sign : c = byte '+' ∨ c = byte '-'
      · exact .inr (.inl ⟨rfl, sign, by simp only [digit, if_pos sign]⟩)
      · refine .inr (.inr ⟨rfl, sign, c :: rest, ?_, by simp only [digit, if_neg sign]⟩)
        apply tokens_cons
        rw [← found]
        exact List.dropWhile_idempotent isspace input

/-! ### The loop -/

theorem readRooms_err (junk : Cell → Nat) (list : List Cell) : ∀ (input : CString) (array : Cell → Nat),
    (readRooms junk list input array).1 = if RunsOut list.length input then 1 else 0 := by
  induction list with
  | nil =>
    intro input array
    rw [readRooms, if_neg fun out => Nat.not_lt_zero _ out.1]
  | cons room list ih =>
    intro input array
    rw [readRooms]
    rcases fscanf1x_cases input with ⟨ended, scan⟩ | ⟨c, rest, next, ⟨value, digit, scan⟩ | ⟨noDigit, sign, scan⟩ |
      ⟨noDigit, noSign, again, stays, scan⟩⟩
    · have out : RunsOut (list.length + 1) input := ⟨by simp [ended], by simp [ended]⟩
      rw [scan, List.length_cons, if_pos out]
      rfl
    · rw [scan, List.length_cons]
      apply (ih rest _).trans
      exact if_congr (by simp [RunsOut, next, digit]) rfl rfl
    · rw [scan, List.length_cons]
      apply (ih rest _).trans
      exact if_congr (by simp [RunsOut, next, sign]) rfl rfl
    · rw [scan, List.length_cons]
      apply (ih again _).trans
      exact if_congr (by simp [RunsOut, next, stays, noDigit, noSign]) rfl rfl

theorem readRooms_digits (junk : Cell → Nat) (list : List Cell) : ∀ (input : CString) (array : Cell → Nat),
    BeginsWithDigits list.length input →
    (readRooms junk list input array).2 =
      (list.zip (tokens input)).foldl (fun array entry => Function.update array entry.1 ((hexValue entry.2).getD 0)) array := by
  induction list with
  | nil => exact fun _ _ _ => rfl
  | cons room list ih =>
    intro input array begins
    rw [readRooms]
    rcases fscanf1x_cases input with ⟨ended, _⟩ | ⟨c, rest, next, ⟨value, digit, scan⟩ | ⟨noDigit, _⟩ | ⟨noDigit, _⟩⟩
    · have short := begins.1
      rw [ended] at short
      exact absurd short (Nat.not_succ_le_zero _)
    · have later : BeginsWithDigits list.length rest := by
        unfold BeginsWithDigits at begins
        simp only [next, List.length_cons, Nat.succ_le_succ_iff, List.take_succ_cons, List.mem_cons, forall_eq_or_imp] at begins
        exact ⟨begins.1, begins.2.2⟩
      simp only [scan, next]
      rw [if_neg (by decide), ih rest _ later]
      simp [digit]
    · have first := begins.2 c (by simp [next])
      rw [noDigit] at first
      cases first
    · have first := begins.2 c (by simp [next])
      rw [noDigit] at first
      cases first

theorem foldl_update_other {entries : List (Cell × UInt8)} (value : UInt8 → Nat) {room : Cell}
    (others : ∀ entry ∈ entries, entry.1 ≠ room) (array : Cell → Nat) :
    entries.foldl (fun array entry => Function.update array entry.1 (value entry.2)) array room = array room := by
  induction entries generalizing array with
  | nil => rfl
  | cons entry entries ih =>
    rw [List.foldl_cons, ih fun entry member => others entry (List.mem_cons_of_mem _ member)]
    exact Function.update_of_ne (others entry List.mem_cons_self).symm _ _

theorem foldl_zip {digits : CString} (value : UInt8 → Nat) (distinct : list.Nodup) (array : Cell → Nat) {k : Nat} {room : Cell}
    {c : UInt8} (isRoom : list[k]? = some room) (isDigit : digits[k]? = some c) :
    (list.zip digits).foldl (fun array entry => Function.update array entry.1 (value entry.2)) array room = value c := by
  induction list generalizing digits array k with
  | nil => cases isRoom
  | cons first list ih =>
    obtain ⟨fresh, distinct⟩ := List.nodup_cons.mp distinct
    cases digits with
    | nil => cases isDigit
    | cons d digits =>
      rw [List.zip_cons_cons, List.foldl_cons]
      cases k with
      | zero =>
        obtain rfl := Option.some.inj isRoom
        obtain rfl := Option.some.inj isDigit
        rw [foldl_update_other value, Function.update_self]
        intro entry member same
        exact fresh (same ▸ (List.of_mem_zip member).1)
      | succ k => exact ih distinct _ isRoom isDigit

/-- The nested loops come to room `(i, j)` after `i` rows and `j` rooms. -/
theorem cells_getElem? {i j : Nat} (iBound : (i : Int) < numRows) (jBound : (j : Int) < numCols) :
    (cells numRows numCols)[i * numCols.toNat + j]? = some ((i : Int), (j : Int)) := by
  have inRow : j < numCols.toNat := by omega
  have rows : ∀ n, i < n → ((List.range n).flatMap (rowCells numCols))[i * numCols.toNat + j]? = some ((i : Int), (j : Int)) := by
    intro n
    induction n with
    | zero => exact fun impossible => absurd impossible (Nat.not_lt_zero i)
    | succ n ih =>
      intro bound
      have length : ((List.range n).flatMap (rowCells numCols)).length = n * numCols.toNat := by
        rw [List.length_flatMap]
        simp [rowCells]
      rw [List.range_succ, List.flatMap_append, List.flatMap_singleton]
      by_cases last : i = n
      · subst last
        rw [List.getElem?_append_right (by omega), length, Nat.add_sub_cancel_left]
        simp [rowCells, inRow]
      · have before : i * numCols.toNat + j < n * numCols.toNat := by
          have := Nat.mul_le_mul_right numCols.toNat (show i + 1 ≤ n by omega)
          rw [Nat.succ_mul] at this
          omega
        rw [List.getElem?_append_left (by omega)]
        exact ih (by omega)
  exact rows numRows.toNat (by omega)

/-! ### Every content -/

/-- The reader returns 0 exactly on the contents in the format and has then stored the digits; on
any other content it returns 1. -/
structure ReadsFormat (numRows numCols : Int) (junk : Cell → Nat) (content : CString) (array : Cell → Nat) : Prop where
  result : (readEncodedMaze numRows numCols junk content array).1 = 0 ∨ (readEncodedMaze numRows numCols junk content array).1 = 1
  accepts : (readEncodedMaze numRows numCols junk content array).1 = 0 ↔ BeginsWithDigits (numRows * numCols).toNat content
  stores : (readEncodedMaze numRows numCols junk content array).1 = 0 → ∀ i j : Nat, (i : Int) < numRows → (j : Int) < numCols →
    ((tokens content)[i * numCols.toNat + j]?).bind hexValue =
      some ((readEncodedMaze numRows numCols junk content array).2 (i, j))

theorem length_cells (rows : 0 < numRows) (cols : 0 < numCols) :
    (cells numRows numCols).length = (numRows * numCols).toNat := by
  rw [← List.toFinset_card_of_nodup (cells_nodup numRows numCols), Int.toNat_mul (by omega) (by omega)]
  exact card_grid numRows numCols

/-- The reader does what its format says, on a content that has the format or runs out of
characters before one that is neither a digit nor a sign, and on no other. -/
theorem readsFormat_iff (rows : 0 < numRows) (cols : 0 < numCols) (junk : Cell → Nat) (content : CString) (array : Cell → Nat) :
    ReadsFormat numRows numCols junk content array ↔
      BeginsWithDigits (numRows * numCols).toNat content ∨ RunsOut (numRows * numCols).toNat content := by
  have count := length_cells rows cols
  have err : (readEncodedMaze numRows numCols junk content array).1 =
      if RunsOut (numRows * numCols).toNat content then 1 else 0 := by
    rw [readEncodedMaze, readRooms_err, count]
  constructor
  · intro reads
    by_cases out : RunsOut (numRows * numCols).toNat content
    · exact .inr out
    · rw [if_neg out] at err
      exact .inl (reads.accepts.mp err)
  · intro format
    rcases format with begins | out
    · have enough : ¬RunsOut (numRows * numCols).toNat content := fun out => Nat.not_lt_of_le begins.1 out.1
      rw [if_neg enough] at err
      refine ⟨.inl err, ⟨fun _ => begins, fun _ => err⟩, ?_⟩
      intro _ i j iBound jBound
      have isRoom := cells_getElem? iBound jBound
      have inside : i * numCols.toNat + j < (numRows * numCols).toNat := by
        rw [← count]
        exact (List.getElem?_eq_some_iff.mp isRoom).1
      have long := Nat.lt_of_lt_of_le inside begins.1
      have isDigit := List.getElem?_eq_getElem long
      have taken := List.mem_take_iff_getElem.mpr ⟨i * numCols.toNat + j, Nat.lt_min.mpr ⟨inside, long⟩, rfl⟩
      obtain ⟨value, digit⟩ := Option.isSome_iff_exists.mp (begins.2 _ taken)
      have stored : (readEncodedMaze numRows numCols junk content array).2 ((i : Int), (j : Int)) = value := by
        rw [readEncodedMaze, readRooms_digits junk _ _ _ (by rw [count]; exact begins),
          foldl_zip (fun c => (hexValue c).getD 0) (cells_nodup _ _) array isRoom isDigit, digit]
        rfl
      rw [stored, isDigit]
      exact digit
    · rw [if_pos out] at err
      refine ⟨.inr err, ⟨fun zero => ?_, fun begins => ?_⟩, fun zero => ?_⟩
      · rw [err] at zero
        cases zero
      · exact absurd begins.1 (Nat.not_le_of_lt out.1)
      · rw [err] at zero
        cases zero

theorem readsFormat_two_by_two : BeginsWithDigits 4 (text "0a\n F3x") ∧
    ReadsFormat 2 2 (fun _ => 7) (text "0a\n F3x") (fun _ => 0) :=
  ⟨by decide +kernel, (readsFormat_iff (by decide) (by decide) _ _ _).mpr (.inl (by decide +kernel))⟩

/-- No digit in the content, and the array is reported as read: it holds what the variable held. -/
theorem junk_read_as_maze : (readEncodedMaze 1 2 (fun c => 40 + c.2.toNat) (text "zz\n") (fun _ => 0)).1 = 0 ∧
    (readEncodedMaze 1 2 (fun c => 40 + c.2.toNat) (text "zz\n") (fun _ => 0)).2 (0, 1) = 41 ∧
    ¬ReadsFormat 1 2 (fun c => 40 + c.2.toNat) (text "zz\n") (fun _ => 0) := by
  have zero : (readEncodedMaze 1 2 (fun c => 40 + c.2.toNat) (text "zz\n") (fun _ => 0)).1 = 0 := by decide
  refine ⟨zero, by decide, ?_⟩
  intro reads
  exact absurd (reads.accepts.mp zero) (by decide +kernel)

end Cs1330.Maze
