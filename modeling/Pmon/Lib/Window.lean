import Mathlib.Data.Set.Lattice
import Mathlib.Order.CompletePartialOrder
import Mathlib.Order.Interval.Set.Basic
import Mathlib.Order.Interval.Set.Disjoint

/-!
# Windows in a wrapping address space

A window is the set of cells met by counting `n` steps up from `a` in an address space
of `M` cells that starts again at `0` after `M - 1`.  A bus that decodes only the low
address bits sees every buffer this way.

The lemmas turn a window into half-open intervals: one interval when it stays below `M`,
two when it passes `M` once, the whole space when it is at least `M` long.
-/

namespace Pmon.Lib

variable {M a n : ℕ}

/-- The cells met by counting `n` steps up from `a`, modulo `M`. -/
def window (M a n : ℕ) : Set ℕ :=
  { p | ∃ i < n, (a + i) % M = p }

theorem mem_window {p : ℕ} : p ∈ window M a n ↔ ∃ i < n, (a + i) % M = p := Iff.rfl

/-- Only the residue of the starting cell matters. -/
theorem window_mod (M a n : ℕ) : window M (a % M) n = window M a n := by
  ext p
  simp only [mem_window, Nat.mod_add_mod]

@[simp] theorem window_zero (M a : ℕ) : window M a 0 = ∅ := by
  ext p
  simp [mem_window]

/-- A window that stays below `M` is an interval. -/
theorem window_eq_Ico (h : a + n ≤ M) : window M a n = Set.Ico a (a + n) := by
  ext p
  simp only [mem_window, Set.mem_Ico]
  constructor
  · rintro ⟨i, hi, rfl⟩
    rw [Nat.mod_eq_of_lt (by omega)]
    omega
  · rintro ⟨hap, hpn⟩
    exact ⟨p - a, by omega, by rw [Nat.mod_eq_of_lt (by omega)]; omega⟩

/-- A window that passes `M` once is its part below `M` and its part from `0` on. -/
theorem window_eq_union (ha : a < M) (hwrap : M ≤ a + n) (hn : n ≤ M) :
    window M a n = Set.Ico a M ∪ Set.Ico 0 (a + n - M) := by
  ext p
  simp only [mem_window, Set.mem_union, Set.mem_Ico]
  constructor
  · rintro ⟨i, hi, rfl⟩
    rcases Nat.lt_or_ge (a + i) M with hlt | hge
    · rw [Nat.mod_eq_of_lt hlt]
      omega
    · rw [Nat.mod_eq_sub_mod hge, Nat.mod_eq_of_lt (by omega)]
      omega
  · rintro (⟨hap, hpM⟩ | ⟨-, hp⟩)
    · exact ⟨p - a, by omega, by rw [Nat.mod_eq_of_lt (by omega)]; omega⟩
    · refine ⟨p + M - a, by omega, ?_⟩
      rw [Nat.mod_eq_sub_mod (by omega), Nat.mod_eq_of_lt (by omega)]
      omega

/-- A window of at least `M` steps covers the whole space. -/
theorem window_eq_Iio (hM : 0 < M) (hn : M ≤ n) : window M a n = Set.Iio M := by
  ext p
  simp only [mem_window, Set.mem_Iio]
  constructor
  · rintro ⟨i, -, rfl⟩
    exact Nat.mod_lt _ hM
  · intro hp
    have hr := Nat.mod_lt a hM
    rcases Nat.lt_or_ge p (a % M) with hlt | hge
    · refine ⟨p + M - a % M, by omega, ?_⟩
      rw [← Nat.mod_add_mod, Nat.mod_eq_sub_mod (by omega), Nat.mod_eq_of_lt (by omega)]
      omega
    · refine ⟨p - a % M, by omega, ?_⟩
      rw [← Nat.mod_add_mod, Nat.mod_eq_of_lt (by omega)]
      omega

/-- Two half-open intervals are disjoint unless each starts below the other's end. -/
theorem disjoint_Ico_iff {a b c d : ℕ} :
    Disjoint (Set.Ico a b) (Set.Ico c d) ↔ (a < b → c < d → b ≤ c ∨ d ≤ a) := by
  rw [Set.Ico_disjoint_Ico]
  constructor <;> intro h <;> omega

end Pmon.Lib
