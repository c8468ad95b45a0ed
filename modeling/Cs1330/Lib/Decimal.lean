import Cs1330.Lib.CString

/-!
# Numerals and words

Numbers as `%d` prints them and as `%d` and `%u` read them back, and the words of a line.
-/

namespace Cs1330

def isDigit (c : UInt8) : Bool := 48 ≤ c && c ≤ 57

/-- The numeral of a number. -/
def decimal (n : Nat) : CString := (Nat.toDigits 10 n).map byte

def digitsValue (s : CString) : Nat := s.foldl (fun n c => 10 * n + (c.toNat - 48)) 0

/-- The sign in front of a numeral, if there is one: whether it is a minus. -/
def scanSign : CString → Bool × CString
  | [] => (false, [])
  | c :: rest => if c = byte '-' then (true, rest) else if c = byte '+' then (false, rest) else (false, c :: rest)

/-- A numeral behind blanks, with its value, and the rest of the input. -/
def scanInteger (input : CString) : Option Int × CString :=
  let sign := scanSign (input.dropWhile isspace)
  let digits := sign.2.takeWhile isDigit
  if digits = [] then (none, sign.2)
  else (some (if sign.1 then -(digitsValue digits : Int) else digitsValue digits), sign.2.drop digits.length)

/-- The words of a line, as `split(" ", $line)` gives them in Perl. -/
def words (line : CString) : List CString := (line.splitOnP isspace).filter fun word => word ≠ []

/-- The lines of a text, without the ends of line. -/
def lines (input : CString) : List CString :=
  let pieces := input.splitOn (byte '\n')
  if pieces.getLast? = some [] then pieces.dropLast else pieces

variable {word rest blank : CString} {c : UInt8} {n : Nat}

/-! ### Numerals -/

theorem byte_digit {c : Char} (digit : c.isDigit = true) : (byte c).toNat = c.toNat ∧ 48 ≤ c.toNat ∧ c.toNat ≤ 57 := by
  have bounds : 48 ≤ c.toNat ∧ c.toNat ≤ 57 := by
    simpa [Char.isDigit, UInt32.le_iff_toNat_le] using digit
  refine ⟨?_, bounds⟩
  rw [byte, UInt8.toNat_ofNat']
  omega

theorem isDigit_decimal (member : c ∈ decimal n) : isDigit c = true := by
  obtain ⟨char, isChar, rfl⟩ := List.mem_map.mp member
  obtain ⟨same, low, high⟩ := byte_digit (Nat.isDigit_of_mem_toDigits (by decide) (by decide) isChar)
  simp only [isDigit, Bool.and_eq_true, decide_eq_true_eq, UInt8.le_iff_toNat_le, same]
  exact ⟨low, high⟩

theorem decimal_ne_nil (n : Nat) : decimal n ≠ [] := by simp [decimal]

theorem digitsValue_chars (chars : List Char) (digits : ∀ c ∈ chars, c.isDigit = true) (init : Nat) :
    (chars.map byte).foldl (fun n c => 10 * n + (c.toNat - 48)) init = Nat.ofDigitChars 10 chars init := by
  induction chars generalizing init with
  | nil => simp
  | cons c chars ih =>
    rw [List.map_cons, List.foldl_cons, Nat.ofDigitChars_cons, (byte_digit (digits c List.mem_cons_self)).1]
    exact ih (fun d member => digits d (List.mem_cons_of_mem _ member)) _

theorem digitsValue_decimal (n : Nat) : digitsValue (decimal n) = n := by
  rw [digitsValue, decimal, digitsValue_chars _ fun c => Nat.isDigit_of_mem_toDigits (by decide) (by decide)]
  exact Nat.ofDigitChars_toDigits (by decide) (by decide)

theorem decimal_injective : Function.Injective decimal := by
  intro m n same
  rw [← digitsValue_decimal m, same, digitsValue_decimal n]

theorem isspace_digit (digit : isDigit c = true) : isspace c = false := by
  simp only [isDigit, Bool.and_eq_true, decide_eq_true_eq, UInt8.le_iff_toNat_le] at digit
  have notBlank : c ≠ 32 := by
    rintro rfl
    exact absurd digit.1 (by decide)
  simp only [isspace, Bool.or_eq_false_iff, beq_eq_false_iff_ne, Bool.and_eq_false_iff, decide_eq_false_iff_not,
    UInt8.le_iff_toNat_le]
  exact ⟨notBlank, .inr fun low => absurd (le_trans digit.1 low) (by decide)⟩

theorem takeWhile_append_stop {p : UInt8 → Bool} (all : ∀ c ∈ word, p c = true) (stop : ∀ c ∈ rest.head?, p c = false) :
    (word ++ rest).takeWhile p = word := by
  rw [List.takeWhile_append_of_pos all]
  cases rest with
  | nil => simp
  | cons c rest => rw [List.takeWhile_cons_of_neg (by simp [stop c rfl]), List.append_nil]

theorem dropWhile_blank_word (white : ∀ c ∈ blank, isspace c = true) (visible : ∀ c ∈ word.head?, isspace c = false)
    (nonempty : word ≠ []) : (blank ++ (word ++ rest)).dropWhile isspace = word ++ rest := by
  rw [List.dropWhile_append_of_pos white]
  cases word with
  | nil => exact absurd rfl nonempty
  | cons c word => exact List.dropWhile_cons_of_neg (by simp [visible c rfl])

theorem scanSign_digit (digit : isDigit c = true) : scanSign (c :: rest) = (false, c :: rest) := by
  have different : c ≠ byte '-' ∧ c ≠ byte '+' := by
    constructor <;> rintro rfl <;> cases digit
  rw [scanSign, if_neg different.1, if_neg different.2]

/-- A numeral that is not followed by another digit is read back. -/
theorem scanInteger_decimal (white : ∀ c ∈ blank, isspace c = true) (stop : ∀ c ∈ rest.head?, isDigit c = false) :
    scanInteger (blank ++ (decimal n ++ rest)) = (some (n : Int), rest) := by
  have digits : ∀ c ∈ decimal n, isDigit c = true := fun c => isDigit_decimal
  have unsigned : scanSign (decimal n ++ rest) = (false, decimal n ++ rest) := by
    cases numeral : decimal n with
    | nil => exact absurd numeral (decimal_ne_nil n)
    | cons c others =>
      apply scanSign_digit
      apply digits
      rw [numeral]
      exact List.mem_cons_self
  have visible : ∀ c ∈ (decimal n).head?, isspace c = false :=
    fun c first => isspace_digit (digits c (List.mem_of_head? first))
  unfold scanInteger
  rw [dropWhile_blank_word white visible (decimal_ne_nil n), unsigned]
  simp only [takeWhile_append_stop digits stop, decimal_ne_nil n, if_false, digitsValue_decimal, Bool.false_eq_true,
    List.drop_left]

/-! ### Words and lines -/

theorem words_word (nonempty : word ≠ []) (visible : ∀ c ∈ word, isspace c = false) : words word = [word] := by
  rw [words, List.splitOnP_eq_singleton visible]
  simp [nonempty]

theorem words_cons (nonempty : word ≠ []) (visible : ∀ c ∈ word, isspace c = false) (white : isspace c = true) :
    words (word ++ c :: rest) = word :: words rest := by
  rw [words, List.splitOnP_append_cons_of_forall_mem visible c white, List.filter_cons_of_pos (by simpa using nonempty)]
  rfl

/-- `%s` reads a word up to the blank behind it. -/
theorem scanWord_word (limit : Nat) (white : ∀ c ∈ blank, isspace c = true) (nonempty : word ≠ [])
    (visible : ∀ c ∈ word, isspace c = false) (stop : ∀ c ∈ rest.head?, isspace c = true)
    (short : word.length + rest.length ≤ limit) : scanWord limit (blank ++ (word ++ rest)) = some (word, rest) := by
  unfold scanWord
  rw [dropWhile_blank_word white (fun c first => visible c (List.mem_of_head? first)) nonempty]
  have whole : (word ++ rest).take limit = word ++ rest := List.take_of_length_le (by rw [List.length_append]; exact short)
  have read : (word ++ rest).takeWhile (fun c => !isspace c) = word :=
    takeWhile_append_stop (fun c member => by simp [visible c member]) fun c first => by simp [stop c first]
  simp only [whole, read, if_neg nonempty, List.drop_left]

theorem scanWord_blank {limit : Nat} (white : ∀ c ∈ blank, isspace c = true) : scanWord limit blank = none := by
  unfold scanWord
  have empty : blank.dropWhile isspace = [] := List.dropWhile_eq_nil_iff.mpr white
  simp [empty]

/-- Lines that are written one after another are read back. -/
theorem lines_flatMap (list : List CString) (whole : ∀ line ∈ list, byte '\n' ∉ line) :
    lines (list.flatMap fun line => line ++ [byte '\n']) = list := by
  have split : (list.flatMap fun line => line ++ [byte '\n']).splitOn (byte '\n') = list ++ [[]] := by
    induction list with
    | nil => rfl
    | cons line list ih =>
      rw [List.flatMap_cons, List.append_assoc, List.singleton_append,
        List.splitOn_append_cons_self_of_not_mem (whole line List.mem_cons_self),
        ih fun line member => whole line (List.mem_cons_of_mem _ member)]
      rfl
  simp [lines, split]

end Cs1330
