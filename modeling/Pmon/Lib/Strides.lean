import Mathlib.Tactic.Common

/-!
# Going over a range in strides

A range of numbers is gone over in strides of the length of a block, from its beginning on, which
need not be the beginning of a block.  Each stride hits the block that it is in.  The blocks that
are hit are those that meet the range, unless the last stride stops short of the block in which the
range ends.

## Key results

- `meetsBlock_of_hits`: only blocks of the range are hit.
- `hitsBlock_iff`: when all of them are.
- `not_hits_iff`: which one may not be.
-/

namespace Pmon.Lib

variable {blk off n b k : ℕ}

/-- Block `b` meets the range of `n` numbers from `off` on. -/
def MeetsBlock (blk off n b : ℕ) : Prop := ∃ x, off ≤ x ∧ x < off + n ∧ x / blk = b

/-- A stride within the range is in block `b`. -/
def HitsBlock (blk off n b : ℕ) : Prop := ∃ k, k * blk < n ∧ off / blk + k = b

theorem stride_div (hblk : 0 < blk) : (off + k * blk) / blk = off / blk + k :=
  Nat.add_mul_div_right off k hblk

theorem meetsBlock_of_hits (hblk : 0 < blk) (h : HitsBlock blk off n b) :
    MeetsBlock blk off n b := by
  obtain ⟨k, hk, rfl⟩ := h
  exact ⟨off + k * blk, Nat.le_add_right _ _, by omega, stride_div hblk⟩

/-- The block in which a range ends. -/
theorem last_div (hblk : 0 < blk) (off n : ℕ) : (off + (n - 1)) / blk =
    off / blk + (n - 1) / blk + (off % blk + (n - 1) % blk) / blk := by
  have hoff := Nat.div_add_mod off blk
  have hn := Nat.div_add_mod (n - 1) blk
  have hsum : off + (n - 1) =
      off % blk + (n - 1) % blk + blk * (off / blk + (n - 1) / blk) := by
    rw [Nat.mul_add]
    omega
  rw [hsum, Nat.add_mul_div_left _ _ hblk, Nat.add_comm]

/-- **All blocks of a range are hit** exactly if the last stride gets into the last one. -/
theorem hitsBlock_iff (hblk : 0 < blk) (hn : 0 < n) :
    (∀ b, MeetsBlock blk off n b → HitsBlock blk off n b) ↔ off % blk + (n - 1) % blk < blk := by
  have hlast := last_div hblk off n
  constructor
  · intro hall
    obtain ⟨k, hk, heq⟩ := hall ((off + (n - 1)) / blk) ⟨off + (n - 1), by omega, by omega, rfl⟩
    have hle : k ≤ (n - 1) / blk := (Nat.le_div_iff_mul_le hblk).mpr (by omega)
    have hzero : (off % blk + (n - 1) % blk) / blk = 0 := by
      generalize (off % blk + (n - 1) % blk) / blk = z at hlast ⊢
      omega
    exact (Nat.div_eq_zero_iff_lt hblk).mp hzero
  · rintro hshort b ⟨x, hx, hlt, rfl⟩
    rw [Nat.div_eq_of_lt hshort, Nat.add_zero] at hlast
    have hfrom : off / blk ≤ x / blk := Nat.div_le_div_right hx
    have hto : x / blk ≤ (off + (n - 1)) / blk := Nat.div_le_div_right (by omega)
    refine ⟨x / blk - off / blk, ?_, by omega⟩
    have hle : (x / blk - off / blk) * blk ≤ (n - 1) / blk * blk :=
      Nat.mul_le_mul_right blk (by omega)
    have hdiv := Nat.div_mul_le_self (n - 1) blk
    omega

/-- The strides one by one. -/
theorem hitsBlock_step (hblk : 0 < blk) (hn : 0 < n) :
    HitsBlock blk off n b ↔ off / blk = b ∨ HitsBlock blk (off + blk) (n - blk) b := by
  have hnext : (off + blk) / blk = off / blk + 1 := Nat.add_div_right off hblk
  constructor
  · rintro ⟨k, hk, rfl⟩
    cases k with
    | zero => exact Or.inl rfl
    | succ k =>
      rw [Nat.succ_mul] at hk
      exact Or.inr ⟨k, by omega, by rw [hnext]; omega⟩
  · rintro (rfl | ⟨k, hk, rfl⟩)
    · exact ⟨0, by omega, rfl⟩
    · refine ⟨k + 1, ?_, by rw [hnext]; omega⟩
      rw [Nat.succ_mul]
      omega

theorem not_hits_zero : ¬ HitsBlock blk off 0 b := fun ⟨_, hk, _⟩ => Nat.not_lt_zero _ hk

/-- **A block of the range that is not hit** is the last one, and the last stride stops short. -/
theorem not_hits_iff {x : ℕ} (hblk : 0 < blk) (hx : off ≤ x) (hlt : x < off + n) :
    ¬ HitsBlock blk off n (x / blk) ↔
      blk ≤ off % blk + (n - 1) % blk ∧ x / blk = (off + (n - 1)) / blk := by
  have hlast := last_div hblk off n
  have hfrom : off / blk ≤ x / blk := Nat.div_le_div_right hx
  have hupto : x / blk ≤ (off + (n - 1)) / blk := Nat.div_le_div_right (by omega)
  have hoff := Nat.mod_lt off hblk
  have hn := Nat.mod_lt (n - 1) hblk
  have hhits : HitsBlock blk off n (x / blk) ↔ x / blk ≤ off / blk + (n - 1) / blk := by
    constructor
    · rintro ⟨k, hk, heq⟩
      have hle : k ≤ (n - 1) / blk := (Nat.le_div_iff_mul_le hblk).mpr (by omega)
      omega
    · intro hle
      refine ⟨x / blk - off / blk, ?_, by omega⟩
      have hmul : (x / blk - off / blk) * blk ≤ (n - 1) / blk * blk :=
        Nat.mul_le_mul_right blk (by omega)
      have hdiv := Nat.div_mul_le_self (n - 1) blk
      omega
  rw [hhits]
  by_cases hshort : off % blk + (n - 1) % blk < blk
  · -- The last stride gets into the last block.
    rw [Nat.div_eq_of_lt hshort, Nat.add_zero] at hlast
    exact iff_of_false (fun h => h (by omega)) fun h => by omega
  · have hcarry : (off % blk + (n - 1) % blk) / blk = 1 :=
      Nat.div_eq_of_lt_le (by omega) (by omega)
    rw [hcarry] at hlast
    omega

end Pmon.Lib
