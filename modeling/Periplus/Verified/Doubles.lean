import Mathlib.Data.Nat.Sqrt
import Mathlib.Data.Nat.Log
import Mathlib.Tactic.Ring
import Mathlib.Algebra.Order.Ring.Nat

/-!
# Natural numbers and their square roots in double precision

A double has 53 significant bits.  A natural number is converted to the nearest multiple
of its last place, and a square root is the nearest multiple of its own last place, which
is a negative power of two for the numbers below `2 ^ 104`.

The square root is kept as the number of its last places (`sqrtUnits`, each of them
`2 ^ -fractionBits`), so that no fraction is needed.

## Main results

* `ofNat_of_lt` — small numbers are not rounded.
* `sqrtUnits_square` — the root of a square is exact.
* `le_sqrtUnits` — the root of a positive number is at least one.
-/

namespace Periplus.Verified.Doubles

/-- The multiple of `unit` that is nearest to `n`, and the even one of two. -/
def nearestMultiple (unit n : Nat) : Nat :=
  if unit < 2 * (n % unit) ∨ (2 * (n % unit) = unit ∧ n / unit % 2 = 1) then
    (n / unit + 1) * unit
  else n / unit * unit

/-- The double nearest to a natural number. -/
def ofNat (n : Nat) : Nat := nearestMultiple (2 ^ (n.log2 - 52)) n

/-- The natural number nearest to the square root of `y`, which never lies halfway. -/
def nearestSqrt (y : Nat) : Nat :=
  if y.sqrt * y.sqrt + y.sqrt < y then y.sqrt + 1 else y.sqrt

/-- How many of the 53 bits of the square root of `x` stand behind the point. -/
def fractionBits (x : Nat) : Nat := 52 - x.log2 / 2

/-- The square root of `x` in units of `2 ^ -fractionBits x`. -/
def sqrtUnits (x : Nat) : Nat := nearestSqrt (x * (2 ^ fractionBits x * 2 ^ fractionBits x))

/-! ## Conversion -/

theorem nearestMultiple_one (n : Nat) : nearestMultiple 1 n = n := by
  have hnone : ¬ (1 < 2 * (n % 1) ∨ (2 * (n % 1) = 1 ∧ n / 1 % 2 = 1)) := by omega
  rw [nearestMultiple, if_neg hnone, Nat.div_one, Nat.mul_one]

theorem ofNat_of_lt {n : Nat} (h : n < 2 ^ 53) : ofNat n = n := by
  have hlog : n.log2 - 52 = 0 := by
    by_cases hn : n = 0
    · rw [hn]
      rfl
    · have := (Nat.log2_lt hn).mpr h
      omega
  rw [ofNat, hlog, pow_zero, nearestMultiple_one]

theorem ofNat_pos {n : Nat} (h : 0 < n) : 0 < ofNat n := by
  have hunit : 2 ^ (n.log2 - 52) ≤ n := by
    have hle : 2 ^ (n.log2 - 52) ≤ 2 ^ n.log2 := Nat.pow_le_pow_right (by omega) (by omega)
    exact hle.trans (Nat.log2_self_le (by omega))
  have hpos : 0 < 2 ^ (n.log2 - 52) := Nat.two_pow_pos _
  have hquotient : 0 < n / 2 ^ (n.log2 - 52) := Nat.div_pos hunit hpos
  rw [ofNat, nearestMultiple]
  split
  · exact Nat.mul_pos (by omega) hpos
  · exact Nat.mul_pos hquotient hpos

/-! ## The square root -/

theorem nearestSqrt_square (m : Nat) : nearestSqrt (m * m) = m := by
  rw [nearestSqrt, Nat.sqrt_eq, if_neg (by omega)]

theorem le_nearestSqrt {m y : Nat} (h : m * m ≤ y) : m ≤ nearestSqrt y := by
  have hroot : m ≤ y.sqrt := Nat.le_sqrt.mpr h
  rw [nearestSqrt]
  split
  · omega
  · exact hroot

theorem sqrtUnits_square (m : Nat) :
    sqrtUnits (m * m) = m * 2 ^ fractionBits (m * m) := by
  have hsquare : ∀ b : Nat, m * m * (b * b) = m * b * (m * b) := by
    intro b
    ring
  rw [sqrtUnits, hsquare, nearestSqrt_square]

theorem le_sqrtUnits {x : Nat} (h : 0 < x) : 2 ^ fractionBits x ≤ sqrtUnits x :=
  le_nearestSqrt (Nat.le_mul_of_pos_left _ h)

end Periplus.Verified.Doubles
