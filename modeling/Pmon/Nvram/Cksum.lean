import Pmon.Nvram.Area

/-!
# What the checksum notices

`cksum` sums up the bytes in pairs, in 16 bits.  A byte counts once or 256 times, by its place, and
what a change of it makes to the sum is less than 65536.

## Key results

- `pairSum_put`: the sum with one byte changed.
- `cksum_detects`: a buffer verifies with its checksum set, and with no byte of it changed.
-/

namespace Pmon.Nvram

open Pmon.Lib

variable {m : Mem} {p n i : ℕ}

/-- How often the byte at `i` counts in a buffer from `p` on. -/
def pairWeight (p i : ℕ) : ℕ := if (i - p) % 2 = 0 then 256 else 1

theorem pairWeight_next (h : p + 2 ≤ i) : pairWeight (p + 2) i = pairWeight p i := by
  unfold pairWeight
  rw [show (i - (p + 2)) % 2 = (i - p) % 2 by omega]

/-- **One byte changed**: the rest of the sum stays what it was. -/
theorem pairSum_put (hp : p ≤ i) (hi : i < p + 2 * n) (b : UInt8) :
    pairSum (m.put i b) p n + pairWeight p i * (m i).toNat =
      pairSum m p n + pairWeight p i * b.toNat := by
  induction n generalizing p with
  | zero => omega
  | succ n ih =>
    rw [pairSum, pairSum]
    by_cases hfirst : i < p + 2
    · -- the changed byte is in this pair, and the others are as before
      have hrest : pairSum (m.put i b) (p + 2) n = pairSum m (p + 2) n := by
        apply pairSum_congr
        intro j hj _
        exact Mem.put_of_ne (by omega)
      rw [hrest]
      rcases Nat.lt_or_ge p i with hodd | heven
      · obtain rfl : i = p + 1 := by omega
        have hweight : pairWeight p (p + 1) = 1 := by simp [pairWeight]
        rw [Mem.put_of_ne (by omega), Mem.put_self, hweight]
        omega
      · obtain rfl : i = p := by omega
        have hweight : pairWeight i i = 256 := by simp [pairWeight]
        rw [Mem.put_self, Mem.put_of_ne (by omega), hweight]
        omega
    · have hstep := ih (p := p + 2) (by omega) (by omega)
      rw [pairWeight_next (by omega)] at hstep
      rw [Mem.put_of_ne (by omega), Mem.put_of_ne (by omega)]
      omega

/-- A byte that is not the one it was makes another sum, in 16 bits too. -/
theorem cksum_put_ne (hp : p ≤ i) (hi : i < p + 2 * n) {b : UInt8} (hb : b ≠ m i) :
    cksum (m.put i b) p (2 * n) ≠ cksum m p (2 * n) := by
  rw [cksum_eq, cksum_eq, Nat.mul_div_cancel_left n (by decide)]
  intro heq
  have hsum := pairSum_put hp hi b (m := m)
  have hnew := b.toNat_lt
  have hold := (m i).toNat_lt
  apply hb
  apply UInt8.toNat_inj.mp
  rcases Nat.mod_two_eq_zero_or_one (i - p) with heven | hodd
  · rw [pairWeight, if_pos heven] at hsum
    omega
  · rw [pairWeight, if_neg (by omega)] at hsum
    omega

/-- **A checksum that is set** verifies, and notices every change of a single byte, those of the
    checksum included. -/
theorem cksum_detects (m : Mem) (p n : ℕ) :
    cksum (cksumSet m p (2 * n)) p (2 * n) = 0 ∧
      ∀ i, p ≤ i → i < p + 2 * n → ∀ b, b ≠ cksumSet m p (2 * n) i →
        cksum ((cksumSet m p (2 * n)).put i b) p (2 * n) ≠ 0 := by
  have hset : cksum (cksumSet m p (2 * n)) p (2 * n) = 0 := by
    cases n with
    | zero => rfl
    | succ n => exact cksum_cksumSet (by omega)
  refine ⟨hset, fun i hp hi b hb => ?_⟩
  rw [← hset]
  exact cksum_put_ne hp hi hb

/-- The last of four bytes is changed. -/
theorem cksum_detects_last :
    cksum ((cksumSet (fun _ => 1) 0 (2 * 2)).put 3 2) 0 (2 * 2) ≠ 0 :=
  (cksum_detects (fun _ => 1) 0 2).2 3 (by decide) (by decide) 2 (by decide)

end Pmon.Nvram
