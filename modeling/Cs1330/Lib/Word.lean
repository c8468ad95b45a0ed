import Mathlib.Tactic.Ring
import Mathlib.Tactic.Linarith

/-!
# Two's complement machine integers

Machine integers are `Int`s in the range of their type. `wrap w` is the conversion to a
`w`-bit signed type; the bitwise operators go through `BitVec`, and the lemmas below say
what they compute on the masks that C code uses for tag bits and alignment.
-/

namespace Machine

/-- The value of `x` after conversion to a `w`-bit signed integer type. -/
def wrap (w : Nat) (x : Int) : Int := x.bmod (2 ^ w)

/-- `x` is representable in 64 bits. -/
def InLong (x : Int) : Prop := -2 ^ 63 ≤ x ∧ x < 2 ^ 63

instance (x : Int) : Decidable (InLong x) := inferInstanceAs (Decidable (_ ∧ _))

/-- `x & y` on 64-bit signed integers. -/
def land (x y : Int) : Int := (BitVec.ofInt 64 x &&& BitVec.ofInt 64 y).toInt

/-- `x | y` on 64-bit signed integers. -/
def lor (x y : Int) : Int := (BitVec.ofInt 64 x ||| BitVec.ofInt 64 y).toInt

theorem wrap_of_inLong {x : Int} (range : InLong x) : wrap 64 x = x := by
  obtain ⟨low, high⟩ := range
  exact Int.bmod_eq_of_le (by norm_num; omega) (by norm_num; omega)

theorem wrap_inLong (x : Int) : InLong (wrap 64 x) := by
  have low := Int.le_bmod (x := x) (m := 2 ^ 64) (by decide)
  have high := Int.bmod_lt (x := x) (m := 2 ^ 64) (by decide)
  norm_num at low high
  exact ⟨by unfold wrap; norm_num; omega, by unfold wrap; norm_num; omega⟩

/-! ### Masks -/

/-- Clearing the low `k` bits of a `w`-bit number rounds it down to a multiple of `2 ^ k`. -/
theorem and_high_mask (n w k : Nat) (bound : n < 2 ^ w) (le : k ≤ w) :
    n &&& (2 ^ w - 2 ^ k) = n - n % 2 ^ k := by
  have mask : 2 ^ w - 2 ^ k = (2 ^ (w - k) - 1) <<< k := by
    rw [Nat.shiftLeft_eq, Nat.sub_mul, one_mul, ← pow_add, Nat.sub_add_cancel le]
  have rounded : n - n % 2 ^ k = (n >>> k) <<< k := by
    rw [Nat.shiftLeft_eq, Nat.shiftRight_eq_div_pow]
    have := Nat.div_add_mod n (2 ^ k)
    rw [Nat.mul_comm] at this
    omega
  rw [mask, rounded]
  apply Nat.eq_of_testBit_eq
  intro i
  simp only [Nat.testBit_and, Nat.testBit_shiftLeft, Nat.testBit_shiftRight, Nat.testBit_two_pow_sub_one]
  by_cases below : i < k
  · simp [Nat.not_le.mpr below]
  · have above : k ≤ i := Nat.le_of_not_lt below
    by_cases inside : i < w
    · simp [above, show i - k < w - k by omega]
    · have zero : n.testBit i = false :=
        Nat.testBit_lt_two_pow (Nat.lt_of_lt_of_le bound (Nat.pow_le_pow_right (by decide) (by omega)))
      simp [above, zero]

theorem toNat_ofInt (x : Int) : ((BitVec.ofInt 64 x).toNat : Int) = x % 2 ^ 64 := by
  rw [BitVec.toNat_ofInt]
  have := Int.emod_nonneg x (show (2 ^ 64 : Int) ≠ 0 by decide)
  push_cast
  omega

theorem toInt_of_toNat {b : BitVec 64} {v : Int} (range : InLong v) (same : (b.toNat : Int) = v % 2 ^ 64) :
    b.toInt = v := by
  rw [BitVec.toInt_eq_toNat_bmod, same]
  have stripped : (v % ((2 ^ 64 : Nat) : Int)).bmod (2 ^ 64) = v.bmod (2 ^ 64) := Int.emod_bmod v _
  exact stripped.trans (wrap_of_inLong range)

/-- `x & (2 ^ k - 1)` is the remainder modulo `2 ^ k`, also for negative `x`. -/
theorem land_low {x : Int} {k : Nat} (small : k < 63) : land x (2 ^ k - 1) = x % 2 ^ k := by
  have le : (2 : Nat) ^ k ≤ 2 ^ 62 := Nat.pow_le_pow_right (by decide) (by omega)
  have pos : 0 < (2 : Nat) ^ k := Nat.pow_pos (by decide)
  have remainder : 0 ≤ x % 2 ^ k ∧ x % 2 ^ k < 2 ^ k :=
    ⟨Int.emod_nonneg _ (by positivity), Int.emod_lt_of_pos _ (by positivity)⟩
  have leInt : (2 : Int) ^ k ≤ 2 ^ 62 := by exact_mod_cast le
  apply toInt_of_toNat ⟨by omega, by omega⟩
  have mask : (BitVec.ofInt 64 (2 ^ k - 1)).toNat = 2 ^ k - 1 := by
    have value := toNat_ofInt (2 ^ k - 1)
    rw [Int.emod_eq_of_lt (by omega) (by omega)] at value
    have : ((2 ^ k - 1 : Nat) : Int) = 2 ^ k - 1 := by push_cast [Nat.one_le_two_pow]; rfl
    omega
  rw [BitVec.toNat_and, mask, Nat.and_two_pow_sub_one_eq_mod, Int.natCast_mod, toNat_ofInt]
  rw [Int.emod_eq_of_lt (a := x % 2 ^ k) remainder.1 (by omega)]
  simp only [Nat.cast_pow, Nat.cast_ofNat]
  exact Int.emod_emod_of_dvd _ (pow_dvd_pow 2 (by omega : k ≤ 64))

/-- `x & -(2 ^ k)` rounds `x` down to a multiple of `2 ^ k`. -/
theorem land_high {x : Int} {k : Nat} (small : k < 63) (range : InLong x) :
    land x (-2 ^ k) = x - x % 2 ^ k := by
  have le : (2 : Nat) ^ k ≤ 2 ^ 62 := Nat.pow_le_pow_right (by decide) (by omega)
  have pos : 0 < (2 : Nat) ^ k := Nat.pow_pos (by decide)
  have remainder : 0 ≤ x % 2 ^ k ∧ x % 2 ^ k < 2 ^ k :=
    ⟨Int.emod_nonneg _ (by positivity), Int.emod_lt_of_pos _ (by positivity)⟩
  have leInt : (2 : Int) ^ k ≤ 2 ^ 62 := by exact_mod_cast le
  have split : (2 : Int) ^ 63 = 2 ^ k * 2 ^ (63 - k) := by rw [← pow_add]; congr 1; omega
  obtain ⟨low, high⟩ := range
  -- The rounded value stays above the least long, itself a multiple of `2 ^ k`.
  have bottom : -2 ^ 63 ≤ x - x % 2 ^ k := by
    have quotient := Int.mul_ediv_add_emod x (2 ^ k)
    have above : -2 ^ (63 - k) ≤ x / 2 ^ k := by
      apply Int.le_ediv_of_mul_le (by positivity)
      linarith [split, mul_comm ((2 : Int) ^ (63 - k)) (2 ^ k)]
    have scaled := mul_le_mul_of_nonneg_left above (show (0 : Int) ≤ 2 ^ k by positivity)
    linarith
  apply toInt_of_toNat ⟨bottom, by omega⟩
  have mask : (BitVec.ofInt 64 (-2 ^ k)).toNat = 2 ^ 64 - 2 ^ k := by
    have value := toNat_ofInt (-2 ^ k)
    rw [← Int.add_emod_right, Int.emod_eq_of_lt (by omega) (by linarith [show (0 : Int) < 2 ^ k by positivity])] at value
    have cast : ((2 ^ 64 - 2 ^ k : Nat) : Int) = 2 ^ 64 - 2 ^ k := by
      rw [Nat.cast_sub (by omega)]; push_cast; rfl
    omega
  rw [BitVec.toNat_and, mask, and_high_mask _ 64 k (BitVec.isLt _) (by omega),
    Nat.cast_sub (Nat.mod_le _ _), Int.natCast_mod, toNat_ofInt]
  have wide : x % 2 ^ 64 % 2 ^ k = x % 2 ^ k :=
    Int.emod_emod_of_dvd _ (pow_dvd_pow 2 (by omega : k ≤ 64))
  have nonneg : 0 ≤ x % 2 ^ 64 := Int.emod_nonneg _ (by decide)
  have bound : x % 2 ^ 64 < 2 ^ 64 := Int.emod_lt_of_pos _ (by decide)
  have lower : x % 2 ^ 64 % 2 ^ k ≤ x % 2 ^ 64 := by
    have quotient := Int.mul_ediv_add_emod (x % 2 ^ 64) (2 ^ k)
    have := mul_nonneg (show (0 : Int) ≤ 2 ^ k by positivity)
      (Int.ediv_nonneg nonneg (show (0 : Int) ≤ 2 ^ k by positivity))
    omega
  simp only [Nat.cast_pow, Nat.cast_ofNat]
  rw [wide] at lower ⊢
  have congr : (x - x % 2 ^ k) % 2 ^ 64 = (x % 2 ^ 64 - x % 2 ^ k) % 2 ^ 64 := by
    rw [Int.sub_emod (x % 2 ^ 64), Int.emod_emod_of_dvd _ (dvd_refl _), ← Int.sub_emod]
  rw [congr]
  exact (Int.emod_eq_of_lt (by omega) (by omega)).symm

theorem lor_bit {x b : Int} (range : InLong x) (even : x % 2 = 0) (bit : b = 0 ∨ b = 1) :
    lor x b = x + b := by
  obtain ⟨low, high⟩ := range
  apply toInt_of_toNat ⟨by omega, by omega⟩
  have value := toNat_ofInt x
  rcases bit with rfl | rfl
  · rw [add_zero, ← value]
    simp
  · rw [BitVec.toNat_or]
    have one : (BitVec.ofInt 64 1).toNat = 1 := rfl
    have evenNat : (BitVec.ofInt 64 x).toNat % 2 = 0 := by omega
    rw [one]
    generalize (BitVec.ofInt 64 x).toNat = n at value evenNat
    have sum : n ||| 1 = n + 1 := by
      obtain ⟨m, rfl⟩ : ∃ m, n = 2 ^ 1 * m := ⟨n / 2, by omega⟩
      exact (Nat.two_pow_add_eq_or_of_lt (by decide) m).symm
    rw [sum]
    push_cast
    omega

theorem lor_odd {x : Int} (range : InLong x) (odd : x % 2 = 1) : lor x 1 = x := by
  apply toInt_of_toNat range
  have value := toNat_ofInt x
  rw [BitVec.toNat_or]
  have one : (BitVec.ofInt 64 1).toNat = 1 := rfl
  have oddNat : (BitVec.ofInt 64 x).toNat % 2 = 1 := by omega
  rw [one]
  generalize (BitVec.ofInt 64 x).toNat = n at value oddNat
  have same : n ||| 1 = n := by
    obtain ⟨m, rfl⟩ : ∃ m, n = 2 ^ 1 * m + 1 := ⟨n / 2, by omega⟩
    rw [Nat.two_pow_add_eq_or_of_lt (by decide) m, Nat.or_assoc, Nat.or_self]
  rw [same, value]

end Machine
