import Mathlib.Data.Int.Notation
import Mathlib.Tactic.Common

/-!
# Machine words

The integers of a 32-bit machine: `wrap32` is what an `int` holds of an integer, `u32` what an
`unsigned int` does.
-/

namespace Pmon.Lib

/-- What an `int` holds of an integer. -/
def wrap32 (x : ℤ) : ℤ := x.bmod 4294967296

theorem wrap32_of_bounds {x : ℤ} (hlo : -2147483648 ≤ x) (hhi : x < 2147483648) :
    wrap32 x = x :=
  Int.bmod_eq_of_le (by omega) (by omega)

theorem wrap32_bounds (x : ℤ) : -2147483648 ≤ wrap32 x ∧ wrap32 x < 2147483648 := by
  have hlo := Int.le_bmod (x := x) (m := 4294967296) (by omega)
  have hhi := Int.bmod_lt (x := x) (m := 4294967296) (by omega)
  rw [wrap32]
  omega

/-- What an `unsigned int` holds of an integer. -/
def u32 (x : ℤ) : ℕ := (x % 4294967296).toNat

theorem u32_lt (x : ℤ) : u32 x < 4294967296 := by
  rw [u32]
  omega

theorem u32_of_bounds {x : ℤ} {n : ℕ} (h : x = n) (hn : n < 4294967296) : u32 x = n := by
  rw [u32]
  omega

end Pmon.Lib
