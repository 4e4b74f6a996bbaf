import Mathlib.Data.List.Destutter

/-!
# Messages that are sent again

`xs.destutter (· ≠ ·)` is a list without the copies that follow an element directly.  For a
sender that sends each message until it is answered, it is the list of the messages; the lemmas
say what one more message does to it.
-/

namespace Pmon.Lib

variable {α : Type*} [DecidableEq α] {xs ys : List α} {x a : α}

theorem getLast?_destutter' (a : α) (xs : List α) :
    (xs.destutter' (· ≠ ·) a).getLast? = (a :: xs).getLast? := by
  induction xs generalizing a with
  | nil => rfl
  | cons x xs ih =>
    rw [List.getLast?_cons_cons, ← ih]
    by_cases hax : a = x
    · subst hax
      rw [List.destutter'_cons_neg xs (by simp)]
    · rw [List.destutter'_cons_pos xs hax, List.getLast?_cons, ih x, List.getLast?_cons,
        Option.getD_some]

/-- The last message is the last one sent. -/
theorem getLast?_destutter (xs : List α) :
    (xs.destutter (· ≠ ·)).getLast? = xs.getLast? := by
  cases xs with
  | nil => rfl
  | cons x xs => exact getLast?_destutter' x xs

theorem destutter'_concat (a x : α) (xs : List α) :
    (xs ++ [x]).destutter' (· ≠ ·) a =
      if (a :: xs).getLast? = some x then xs.destutter' (· ≠ ·) a
      else xs.destutter' (· ≠ ·) a ++ [x] := by
  induction xs generalizing a with
  | nil =>
    by_cases hax : a = x <;> simp [hax]
  | cons y xs ih =>
    rw [List.getLast?_cons_cons, List.cons_append]
    by_cases hay : a = y
    · subst hay
      rw [List.destutter'_cons_neg _ (by simp), List.destutter'_cons_neg _ (by simp), ih]
    · rw [List.destutter'_cons_pos _ hay, List.destutter'_cons_pos _ hay, ih]
      split <;> rfl

/-- **The last message, sent again.** -/
theorem destutter_again (h : xs.getLast? = some x) :
    (xs ++ [x]).destutter (· ≠ ·) = xs.destutter (· ≠ ·) := by
  cases xs with
  | nil => cases h
  | cons a xs => exact (destutter'_concat a x xs).trans (if_pos h)

/-- **A new message.** -/
theorem destutter_new (h : xs.getLast? ≠ some x) :
    (xs ++ [x]).destutter (· ≠ ·) = xs.destutter (· ≠ ·) ++ [x] := by
  cases xs with
  | nil => rfl
  | cons a xs => exact (destutter'_concat a x xs).trans (if_neg h)

end Pmon.Lib
