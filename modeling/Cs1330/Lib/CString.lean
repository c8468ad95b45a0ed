import Mathlib.Data.List.Lex
import Mathlib.Data.List.TakeWhile
import Mathlib.Data.UInt
import Mathlib.Tactic.Common

/-!
# C strings

A C string is the list of its bytes before the terminating NUL. `strcmp` compares bytes as
`unsigned char`, so its order is the lexicographic order of the lists.
-/

namespace Cs1330

abbrev CString := List UInt8

instance byteLinearOrder : LinearOrder UInt8 where
  le_refl := UInt8.le_refl
  le_trans _ _ _ := UInt8.le_trans
  le_antisymm _ _ := UInt8.le_antisymm
  le_total := UInt8.le_total
  lt_iff_le_not_ge a b := by
    simp only [UInt8.lt_iff_toNat_lt, UInt8.le_iff_toNat_le]
    omega
  toDecidableLE := inferInstance
  toDecidableEq := inferInstance
  toDecidableLT := inferInstance

def byte (c : Char) : UInt8 := UInt8.ofNat c.toNat

def text (s : String) : CString := s.toList.map byte

def strcmp : CString → CString → Int
  | [], [] => 0
  | [], _ :: _ => -1
  | _ :: _, [] => 1
  | a :: as, b :: bs => if a = b then strcmp as bs else if a < b then -1 else 1

/-- `snprintf(buffer, len, "%s", s)`: at most `len - 1` bytes. -/
def snprintf (len : Nat) (s : CString) : CString := s.take (len - 1)

/-- `isspace` in the C locale. -/
def isspace (c : UInt8) : Bool := c == 32 || (9 ≤ c && c ≤ 13)

/-- The `%<limit>s` conversion of `sscanf`: the word and the rest of the input. -/
def scanWord (limit : Nat) (s : CString) : Option (CString × CString) :=
  let input := s.dropWhile isspace
  let word := (input.take limit).takeWhile fun c => !isspace c
  if word = [] then none else some (word, input.drop word.length)

/-- `fgets` into a buffer of `size` bytes: the line with its newline, and what is left. -/
def fgets (size : Nat) (input : CString) : CString × CString :=
  match (input.take (size - 1)).findIdx? (· = byte '\n') with
  | some i => input.splitAt (i + 1)
  | none => input.splitAt (size - 1)

/-! ### `strcmp` and the lexicographic order -/

theorem strcmp_eq_zero (s t : CString) : strcmp s t = 0 ↔ s = t := by
  induction s generalizing t with
  | nil => cases t <;> simp [strcmp]
  | cons a as ih =>
    cases t with
    | nil => simp [strcmp]
    | cons b bs =>
      rw [strcmp]
      by_cases same : a = b
      · rw [if_pos same, ih, same]
        simp
      · rw [if_neg same]
        have different : ¬a :: as = b :: bs := by simp [same]
        by_cases less : a < b
        · simp [less, same]
        · simp [less, same]

theorem strcmp_neg (s t : CString) : strcmp s t < 0 ↔ s < t := by
  induction s generalizing t with
  | nil =>
    cases t with
    | nil => simp [strcmp]
    | cons b bs => simp [strcmp]
  | cons a as ih =>
    cases t with
    | nil => simp [strcmp]
    | cons b bs =>
      rw [strcmp, List.cons_lt_cons_iff]
      by_cases same : a = b
      · rw [if_pos same, ih, same]
        simp
      · rw [if_neg same]
        by_cases less : a < b
        · simp [less]
        · simp [less, same]

/-! ### `fgets` -/

theorem fgets_split (size : Nat) (input : CString) :
    ∃ n ≤ size - 1, (1 < size → 0 < n) ∧ fgets size input = (input.take n, input.drop n) := by
  unfold fgets
  cases found : (input.take (size - 1)).findIdx? (· = byte '\n') with
  | none => exact ⟨size - 1, Nat.le_refl _, by omega, List.splitAt_eq⟩
  | some i =>
    refine ⟨i + 1, ?_, fun _ => Nat.succ_pos i, List.splitAt_eq⟩
    have inside := (List.findIdx?_eq_some_iff_findIdx_eq.mp found).1
    rw [List.length_take] at inside
    omega

theorem fgets_append (size : Nat) (input : CString) : (fgets size input).1 ++ (fgets size input).2 = input := by
  obtain ⟨n, _, _, split⟩ := fgets_split size input
  rw [split]
  exact List.take_append_drop n input

theorem fgets_length (size : Nat) (input : CString) : (fgets size input).1.length ≤ size - 1 := by
  obtain ⟨n, bound, _, split⟩ := fgets_split size input
  rw [split]
  exact Nat.le_trans (List.length_take_le n input) bound

theorem fgets_pos {size : Nat} (room : 1 < size) {input : CString} (nonempty : input ≠ []) :
    0 < (fgets size input).1.length := by
  obtain ⟨n, _, positive, split⟩ := fgets_split size input
  rw [split, List.length_take]
  exact Nat.lt_min.mpr ⟨positive room, List.length_pos_iff.mpr nonempty⟩

theorem newline_unfound {s : CString} (plain : byte '\n' ∉ s) : s.findIdx? (· = byte '\n') = none := by
  rw [List.findIdx?_eq_none_iff]
  intro c member
  exact decide_eq_false fun same => plain (same ▸ member)

theorem fgets_line {size : Nat} {body rest : CString} (plain : byte '\n' ∉ body) (fits : body.length + 1 < size) :
    fgets size (body ++ byte '\n' :: rest) = (body ++ [byte '\n'], rest) := by
  obtain ⟨k, isK⟩ : ∃ k, size - 1 = body.length + (k + 1) := ⟨size - 1 - body.length - 1, by omega⟩
  have found : ((body ++ byte '\n' :: rest).take (size - 1)).findIdx? (· = byte '\n') = some body.length := by
    rw [isK, List.take_length_add_append, List.take_succ_cons, List.findIdx?_append, newline_unfound plain]
    simp [List.findIdx?_cons]
  have length : (body ++ [byte '\n']).length = body.length + 1 := List.length_append
  have split : body ++ byte '\n' :: rest = (body ++ [byte '\n']) ++ rest := (List.append_cons _ _ _)
  unfold fgets
  rw [found]
  simp only [List.splitAt_eq]
  rw [split, List.take_left' length, List.drop_left' length]

/-! ### Words -/

def firstWord (s : CString) : CString := (s.dropWhile isspace).takeWhile fun c => !isspace c

def afterWord (s : CString) : CString := (s.dropWhile isspace).dropWhile fun c => !isspace c

/-- Inputs shorter than the limit are cut at whitespace only. -/
theorem scanWord_eq {limit : Nat} {s : CString} (short : s.length ≤ limit) :
    scanWord limit s = if firstWord s = [] then none else some (firstWord s, afterWord s) := by
  have inputShort : (s.dropWhile isspace).length ≤ limit :=
    Nat.le_trans (List.dropWhile_suffix _).length_le short
  have whole : (s.dropWhile isspace).take limit = s.dropWhile isspace := List.take_of_length_le inputShort
  have rest : (s.dropWhile isspace).drop (firstWord s).length = afterWord s := by
    have split : firstWord s ++ afterWord s = s.dropWhile isspace := List.takeWhile_append_dropWhile
    rw [← split, List.drop_left]
  unfold scanWord
  simp only [whole]
  rw [← rest]
  rfl

end Cs1330
