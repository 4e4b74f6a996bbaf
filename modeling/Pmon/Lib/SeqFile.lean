import Mathlib.Data.List.Basic
import Mathlib.Tactic.Common

/-!
# Files read through a position

What a descriptor that is read and positioned is for: `clip content pos n` are the `n` bytes
at `pos`, cut off at the end of the file, and `FileStep content` is the system whose state is
the position and whose events are reads with the bytes they return, changes of the position,
and calls that are refused.

`clip_add` splits a read into two; a loop that reads piece by piece is an induction over it.
-/

namespace Pmon.Lib

variable {α : Type*} {content : List α} {pos m n : ℕ}

/-- The `n` bytes at `pos`, as far as the file has them. -/
def clip (content : List α) (pos n : ℕ) : List α := (content.drop pos).take n

@[simp] theorem clip_zero : clip content pos 0 = [] := List.take_zero

theorem length_clip : (clip content pos n).length = min n (content.length - pos) := by
  rw [clip, List.length_take, List.length_drop]

theorem clip_of_length_le (h : content.length ≤ pos) : clip content pos n = [] := by
  rw [clip, List.drop_eq_nil_of_le h, List.take_nil]

/-- **A read in two pieces.** -/
theorem clip_add : clip content pos (m + n) = clip content pos m ++ clip content (pos + m) n := by
  rw [clip, clip, clip, List.take_add, List.drop_drop]

/-- A read that asks for more than there is gets what there is. -/
theorem clip_of_le (hm : content.length - pos ≤ m) (hn : content.length - pos ≤ n) :
    clip content pos m = clip content pos n := by
  rw [clip, clip, List.take_of_length_le (by rw [List.length_drop]; exact hm),
    List.take_of_length_le (by rw [List.length_drop]; exact hn)]

/-- A piece of a piece. -/
theorem drop_take_clip {i k : ℕ} (h : i + k ≤ n) :
    ((clip content pos n).drop i).take k = clip content (pos + i) k := by
  rw [clip, clip, List.drop_take, List.drop_drop, List.take_take, Nat.min_eq_left (by omega)]

/-- What a caller sees of one call. -/
inductive FileEvent (α : Type*) where
  /-- A read of at most `n` bytes, with the bytes it returned. -/
  | read (n : ℕ) (bytes : List α)
  /-- The position was set. -/
  | seek (pos : ℕ)
  /-- The call failed. -/
  | refused

/-- A file that is read through a position. -/
inductive FileStep (content : List α) : ℕ → FileEvent α → ℕ → Prop where
  | read (pos n : ℕ) :
      FileStep content pos (.read n (clip content pos n)) (pos + (clip content pos n).length)
  | seek (pos pos' : ℕ) : FileStep content pos (.seek pos') pos'
  | refused (pos : ℕ) : FileStep content pos .refused pos

end Pmon.Lib
