import Mathlib.Data.List.Basic
import Mathlib.Tactic.Common

/-!
# Strings in buffers of a fixed size

A buffer has a fixed number of cells; a store that would leave it has no result.  A buffer holds a
string when the string, free of the terminator, stands in front of a terminator.

## Key results

- `StrBuf.copy_eq`: copying a string that leaves room for the terminator gives `StrBuf.put`.
- `StrBuf.Holds.unique`: a buffer holds one string at most.
-/

namespace Pmon.Lib

/-- A buffer of `n` cells. -/
structure StrBuf (α : Type) (n : ℕ) where
  cells : List α
  length_cells : cells.length = n

namespace StrBuf

variable {α : Type} {n i : ℕ} {b : StrBuf α n} {s t : List α}

theorem ext {b b' : StrBuf α n} (h : b.cells = b'.cells) : b = b' := by
  cases b
  cases b'
  cases h
  rfl

/-- A buffer with the same element in all cells. -/
def fill (n : ℕ) (x : α) : StrBuf α n := ⟨List.replicate n x, List.length_replicate⟩

/-- Storing elements from the first cell on. -/
def store (b : StrBuf α n) (s : List α) : Option (StrBuf α n) :=
  if h : s.length ≤ n then
    some ⟨s ++ b.cells.drop s.length, by simp [b.length_cells]; omega⟩
  else none

variable [Zero α]

/-- Storing the terminator in a cell. -/
def terminate (b : StrBuf α n) (i : ℕ) : Option (StrBuf α n) :=
  if i < n then some ⟨b.cells.set i 0, by simp [b.length_cells]⟩ else none

/-- The buffer holds the string `s`. -/
def Holds (b : StrBuf α n) (s : List α) : Prop :=
  0 ∉ s ∧ ∃ rest, b.cells = s ++ 0 :: rest

theorem Holds.length_lt (h : b.Holds s) : s.length < n := by
  obtain ⟨-, rest, hcells⟩ := h
  have hlen := b.length_cells
  rw [hcells, List.length_append, List.length_cons] at hlen
  omega

/-- What stands in front of the first terminator is determined. -/
theorem eq_of_append_zero {s t u v : List α} (hs : 0 ∉ s) (ht : 0 ∉ t)
    (h : s ++ 0 :: u = t ++ 0 :: v) : s = t := by
  induction s generalizing t with
  | nil =>
    cases t with
    | nil => rfl
    | cons x t => exact absurd ((List.cons.inj h).1 ▸ List.mem_cons_self ..) ht
  | cons x s ih =>
    cases t with
    | nil => exact absurd ((List.cons.inj h).1 ▸ List.mem_cons_self ..) hs
    | cons y t =>
      obtain ⟨rfl, htail⟩ := List.cons.inj h
      rw [ih (fun hmem => hs (List.mem_cons_of_mem _ hmem))
        (fun hmem => ht (List.mem_cons_of_mem _ hmem)) htail]

theorem Holds.unique (h : b.Holds s) (h' : b.Holds t) : s = t := by
  obtain ⟨hs, u, hu⟩ := h
  obtain ⟨ht, v, hv⟩ := h'
  exact eq_of_append_zero hs ht (hu.symm.trans hv)

/-- The string, the terminator and what was behind them. -/
def put (b : StrBuf α n) (s : List α) (h : s.length < n) : StrBuf α n :=
  ⟨s ++ 0 :: b.cells.drop (s.length + 1), by simp [b.length_cells]; omega⟩

theorem holds_put (h : s.length < n) (hs : 0 ∉ s) : (b.put s h).Holds s := ⟨hs, _, rfl⟩

theorem length_take_lt (b : StrBuf α n) (h : i < n) : (b.cells.take i).length < n := by
  rw [List.length_take, b.length_cells]
  omega

theorem terminate_eq (h : i < n) :
    b.terminate i = some (b.put (b.cells.take i) (b.length_take_lt h)) := by
  have hlen : (b.cells.take i).length = i := by
    rw [List.length_take, b.length_cells]
    omega
  rw [terminate, if_pos h]
  congr 1
  apply ext
  change b.cells.set i 0 = b.cells.take i ++ 0 :: b.cells.drop ((b.cells.take i).length + 1)
  rw [List.set_eq_take_append_cons_drop, if_pos (by rw [b.length_cells]; exact h), hlen]

theorem terminate_zero (h : 0 < n) : b.terminate 0 = some (b.put [] h) := terminate_eq h

/-- A buffer without a terminator holds no string. -/
theorem not_holds_fill {x : α} (hx : x ≠ 0) : ¬ (fill n x).Holds s := by
  rintro ⟨-, rest, hcells⟩
  have hmem : (0 : α) ∈ List.replicate n x := by
    rw [show List.replicate n x = s ++ 0 :: rest from hcells]
    simp
  exact hx (List.eq_of_mem_replicate hmem).symm

/-- Copying a string and terminating it. -/
def copy (b : StrBuf α n) (s : List α) : Option (StrBuf α n) :=
  (b.store s).bind fun b => b.terminate s.length

theorem copy_eq (h : s.length < n) : b.copy s = some (b.put s h) := by
  rw [copy, store, dif_pos (Nat.le_of_lt h), Option.bind_some, terminate_eq h]
  congr 1
  apply ext
  simp [put]

end StrBuf

end Pmon.Lib
