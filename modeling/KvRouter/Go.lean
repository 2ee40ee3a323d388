import Mathlib.Order.Basic
import Mathlib.Algebra.Order.Ring.Int

/-!
# KvRouter.Go

The few Go built-ins the packages share: byte strings, `time.Time`, and the
wrap-around of 64-bit `int` arithmetic.
-/

namespace KvRouter

/-- The bytes of a Go `string` or `[]byte`. -/
abbrev Bytes := List UInt8

/- A `time.Time` is an integer of nanoseconds, `0` for the zero Time. -/

/-- A reading of `time.Now`, which is never the zero Time. -/
structure Instant where
  time : ℤ
  ne_zero : time ≠ 0
deriving DecidableEq

/-! ## 64-bit `int` -/

/-- `math.MaxInt` on a 64-bit platform. -/
def maxInt : ℤ := 9223372036854775807

/-- The value a 64-bit `int` holds after an operation whose exact result is `x`. -/
def wrapInt (x : ℤ) : ℤ := Int.bmod x 18446744073709551616

/-- An `int` in range does not wrap. -/
theorem wrapInt_eq {x : ℤ} (hlo : -maxInt ≤ x) (hhi : x ≤ maxInt) : wrapInt x = x := by
  unfold wrapInt maxInt at *
  exact Int.bmod_eq_of_le (by omega) (by omega)

theorem wrapInt_of_range {x : ℤ} (hlo : 0 ≤ x) (hhi : x ≤ maxInt) : wrapInt x = x :=
  wrapInt_eq (Int.le_trans (by decide) hlo) hhi

/-- Adding an `int` either gives the exact sum or wraps below what it was added to. -/
theorem wrapInt_add_of_le {a b : ℤ} (ha : 0 ≤ a) (hb : 1 ≤ b) (hmax : b ≤ maxInt)
    (h : a ≤ wrapInt (a + b)) : wrapInt (a + b) = a + b := by
  unfold wrapInt maxInt at *
  rw [Int.bmod_def] at *
  split at h
  · next hlt =>
      rw [if_pos hlt]
      omega
  · next hlt =>
      rw [if_neg hlt]
      omega

theorem wrapInt_le_maxInt (x : ℤ) : wrapInt x ≤ maxInt := by
  have hlt := Int.bmod_lt (x := x) (m := 18446744073709551616) (by decide)
  unfold wrapInt maxInt
  omega

/-- A sum that exceeds the range wraps to a negative number. -/
theorem wrapInt_neg {x : ℤ} (hlo : maxInt < x) (hhi : x ≤ 2 * maxInt + 1) : wrapInt x < 0 := by
  unfold wrapInt maxInt at *
  rw [Int.bmod_def]
  split <;> omega

end KvRouter
