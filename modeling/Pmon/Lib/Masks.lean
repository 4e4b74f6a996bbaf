import Mathlib.Data.BitVec
import Mathlib.Tactic.Common

/-!
# Masks

A word as what a mask leaves of it and what its complement leaves; the mask of the bits below a
power of two leaves the remainder.

## Key results

- `toNat_and_add_and_not`: both parts are the word.
- `toNat_and_sub_one`: the part below a power of two.
-/

namespace Pmon.Lib

variable {w k : ℕ} {x y m : BitVec w}

/-- **What a mask leaves and what it clears.** -/
theorem toNat_and_add_and_not (x y : BitVec w) :
    (x &&& y).toNat + (x &&& ~~~y).toNat = x.toNat := by
  have hdisj : (x &&& y) &&& (x &&& ~~~y) = 0#w := by
    ext i hi
    simp only [BitVec.getElem_and, BitVec.getElem_not, BitVec.getElem_zero]
    cases x[i] <;> cases y[i] <;> rfl
  have hjoin : (x &&& y) ||| (x &&& ~~~y) = x := by
    ext i hi
    simp only [BitVec.getElem_or, BitVec.getElem_and, BitVec.getElem_not]
    cases x[i] <;> cases y[i] <;> rfl
  rw [← BitVec.toNat_add_of_and_eq_zero hdisj, BitVec.add_eq_or_of_and_eq_zero _ _ hdisj, hjoin]

/-- **The bits below a power of two** are the remainder. -/
theorem toNat_and_sub_one (hm : m.toNat = 2 ^ k) (x : BitVec w) :
    (x &&& (m - 1)).toNat = x.toNat % m.toNat := by
  have hpos := Nat.two_pow_pos k
  have hlt : 2 ^ k < 2 ^ w := hm ▸ m.isLt
  have hone : (1 : BitVec w).toNat = 1 := by
    have hw : 0 < w := by
      by_contra hzero
      have hw0 : w = 0 := by omega
      rw [hw0] at hlt
      omega
    simp [Nat.mod_eq_of_lt (Nat.one_lt_two_pow hw.ne')]
  have hsub : (m - 1).toNat = 2 ^ k - 1 := by
    rw [BitVec.toNat_sub_of_le (by rw [BitVec.le_def, hone, hm]; omega), hone, hm]
  rw [BitVec.toNat_and, hsub, Nat.and_two_pow_sub_one_eq_mod, hm]

/-- The bits from a power of two on. -/
theorem toNat_and_not_sub_one (hm : m.toNat = 2 ^ k) (x : BitVec w) :
    (x &&& ~~~(m - 1)).toNat = x.toNat / m.toNat * m.toNat := by
  have hsum := toNat_and_add_and_not x (m - 1)
  have hdiv := Nat.div_add_mod x.toNat m.toNat
  rw [toNat_and_sub_one hm] at hsum
  rw [Nat.mul_comm]
  omega

end Pmon.Lib
