import Cs1330.Lib.Word

/-!
# Flat byte memory

A memory gives the byte at every address. Words are eight little-endian bytes read as a
signed 64-bit integer. The lemmas are a load after a store, the frame of a store, and the
contents of a forward byte copy.
-/

namespace Machine

abbrev Memory := Int → UInt8

def Memory.set (m : Memory) (a : Int) (b : UInt8) : Memory := fun x => if x = a then b else m x

@[simp] theorem Memory.set_same (m : Memory) (a : Int) (b : UInt8) : m.set a b a = b := if_pos rfl

theorem Memory.set_other {m : Memory} {a x : Int} {b : UInt8} (different : x ≠ a) : m.set a b x = m x :=
  if_neg different

def loadBytes (m : Memory) (a : Int) : Nat → Nat
  | 0 => 0
  | n + 1 => (m a).toNat + 256 * loadBytes m (a + 1) n

def storeBytes (m : Memory) (a : Int) : Nat → Nat → Memory
  | 0, _ => m
  | n + 1, v => storeBytes (m.set a (UInt8.ofNat (v % 256))) (a + 1) n (v / 256)

/-- The signed word at `a`. -/
def load (m : Memory) (a : Int) : Int := wrap 64 (loadBytes m a 8)

/-- `m` with the word at `a` replaced by `v`. -/
def store (m : Memory) (a v : Int) : Memory := storeBytes m a 8 (v % 2 ^ 64).toNat

/-- `memcpy`: `n` bytes from `s` to `d`, one at a time in increasing address order. -/
def memcpy (m : Memory) (d s : Int) : Nat → Memory
  | 0 => m
  | n + 1 => memcpy (m.set d (m s)) (d + 1) (s + 1) n

/-- `memset`: the byte `c` at the `n` addresses from `d` on. -/
def memset (m : Memory) (d : Int) (c : UInt8) : Nat → Memory
  | 0 => m
  | n + 1 => memset (m.set d c) (d + 1) c n

theorem loadBytes_congr {m m' : Memory} {a : Int} {n : Nat}
    (same : ∀ x, a ≤ x → x < a + n → m' x = m x) : loadBytes m' a n = loadBytes m a n := by
  induction n generalizing a with
  | zero => rfl
  | succ n ih =>
    rw [loadBytes, loadBytes, same a (by omega) (by omega), ih fun x low high => same x (by omega) (by omega)]

theorem storeBytes_outside {m : Memory} {a x : Int} {n v : Nat} (outside : x < a ∨ a + n ≤ x) :
    storeBytes m a n v x = m x := by
  induction n generalizing m a v with
  | zero => rfl
  | succ n ih =>
    rw [storeBytes, ih (by omega), Memory.set_other (by omega)]

theorem loadBytes_storeBytes {m : Memory} {a : Int} {n v : Nat} (bound : v < 256 ^ n) :
    loadBytes (storeBytes m a n v) a n = v := by
  induction n generalizing m a v with
  | zero => simp at bound; simp [loadBytes, bound]
  | succ n ih =>
    have quotient : v / 256 < 256 ^ n := by
      apply Nat.div_lt_of_lt_mul
      rwa [pow_succ, Nat.mul_comm] at bound
    have byte : (UInt8.ofNat (v % 256)).toNat = v % 256 :=
      UInt8.toNat_ofNat_of_lt' (Nat.mod_lt _ (by decide))
    rw [loadBytes, storeBytes, ih quotient, storeBytes_outside (by omega), Memory.set_same, byte]
    omega

theorem load_inLong (m : Memory) (a : Int) : InLong (load m a) := wrap_inLong _

theorem load_congr {m m' : Memory} {a : Int} (same : ∀ x, a ≤ x → x < a + 8 → m' x = m x) :
    load m' a = load m a := by
  unfold load
  rw [loadBytes_congr (n := 8) same]

theorem store_outside {m : Memory} {a v x : Int} (outside : x < a ∨ a + 8 ≤ x) : store m a v x = m x :=
  storeBytes_outside (n := 8) outside

theorem load_store {m : Memory} {a v : Int} (range : InLong v) : load (store m a v) a = v := by
  have nonneg : 0 ≤ v % 2 ^ 64 := Int.emod_nonneg _ (by decide)
  have bound : v % 2 ^ 64 < 2 ^ 64 := Int.emod_lt_of_pos _ (by decide)
  have word : (v % 2 ^ 64).toNat < 256 ^ 8 := by omega
  unfold load store
  rw [loadBytes_storeBytes word, Int.toNat_of_nonneg nonneg]
  exact (Int.emod_bmod v (2 ^ 64)).trans (wrap_of_inLong range)

theorem load_store_other {m : Memory} {a b v : Int} (apart : b + 8 ≤ a ∨ a + 8 ≤ b) :
    load (store m a v) b = load m b :=
  load_congr fun _ _ _ => store_outside (by omega)

theorem memcpy_outside {m : Memory} {d s x : Int} {n : Nat} (outside : x < d ∨ d + n ≤ x) :
    memcpy m d s n x = m x := by
  induction n generalizing m d s with
  | zero => rfl
  | succ n ih => rw [memcpy, ih (by omega), Memory.set_other (by omega)]

/-- The copy of every source byte that the destination does not cover. The rest of the source
may overlap the destination. -/
theorem memcpy_inside {m : Memory} {d s i : Int} {n k : Nat} (apart : s + k ≤ d ∨ d + n ≤ s)
    (low : 0 ≤ i) (source : i < k) (inside : i < n) : memcpy m d s n (d + i) = m (s + i) := by
  induction n generalizing m d s i k with
  | zero => omega
  | succ n ih =>
    rw [memcpy]
    rcases eq_or_lt_of_le low with rfl | positive
    · rw [memcpy_outside (by omega), add_zero, add_zero, Memory.set_same]
    · have rest := ih (m := m.set d (m s)) (d := d + 1) (s := s + 1) (i := i - 1) (k := k - 1)
        (by omega) (by omega) (by omega) (by omega)
      rw [show d + i = d + 1 + (i - 1) by omega, rest, Memory.set_other (by omega)]
      congr 1
      omega

theorem memset_outside {m : Memory} {d x : Int} {c : UInt8} {n : Nat} (outside : x < d ∨ d + n ≤ x) :
    memset m d c n x = m x := by
  induction n generalizing m d with
  | zero => rfl
  | succ n ih => rw [memset, ih (by omega), Memory.set_other (by omega)]

theorem memset_inside {m : Memory} {d x : Int} {c : UInt8} {n : Nat} (low : d ≤ x) (high : x < d + n) :
    memset m d c n x = c := by
  induction n generalizing m d with
  | zero => omega
  | succ n ih =>
    rw [memset]
    rcases eq_or_lt_of_le low with rfl | after
    · rw [memset_outside (by omega), Memory.set_same]
    · exact ih (by omega) (by omega)

end Machine
