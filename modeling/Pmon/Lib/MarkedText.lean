import Mathlib.Data.List.Basic

/-!
# Text with a cursor and a mark

A line of text, the cursor and a mark, both between 0 and the length of the text.  The two edits
are inserting at the cursor and cutting a range out; a mark behind a cut range stays on its
character, a mark inside it comes to stand where the range was.

## Key results

- `MarkedText.ext`: the three values determine the text, the bounds come with the type.
- `cut_eq_self`: cutting nothing out at the cursor changes nothing.
-/

namespace Pmon.Lib

/-- A text with a cursor and a mark, each between two characters or at an end. -/
structure MarkedText (α : Type) where
  text : List α
  cursor : ℕ
  mark : ℕ
  cursor_le : cursor ≤ text.length
  mark_le : mark ≤ text.length

namespace MarkedText

variable {α : Type} {t t' : MarkedText α} {a b : ℕ}

theorem ext (htext : t.text = t'.text) (hcursor : t.cursor = t'.cursor) (hmark : t.mark = t'.mark) :
    t = t' := by
  cases t
  cases t'
  cases htext
  cases hcursor
  cases hmark
  rfl

/-- A text with the cursor behind it and the mark before it. -/
def ofList (text : List α) : MarkedText α where
  text
  cursor := text.length
  mark := 0
  cursor_le := Nat.le_refl _
  mark_le := Nat.zero_le _

/-- The cursor goes to column `n`, or to the end. -/
def goto (t : MarkedText α) (n : ℕ) : MarkedText α where
  text := t.text
  cursor := min n t.text.length
  mark := t.mark
  cursor_le := Nat.min_le_right ..
  mark_le := t.mark_le

/-- The mark goes to the cursor. -/
def setMark (t : MarkedText α) : MarkedText α where
  text := t.text
  cursor := t.cursor
  mark := t.cursor
  cursor_le := t.cursor_le
  mark_le := t.cursor_le

/-- Insert at the cursor.  The mark is a column and keeps it. -/
def insert (t : MarkedText α) (c : α) : MarkedText α where
  text := t.text.take t.cursor ++ c :: t.text.drop t.cursor
  cursor := t.cursor + 1
  mark := t.mark
  cursor_le := by
    have := t.cursor_le
    simp only [List.length_append, List.length_take, List.length_cons, List.length_drop]
    omega
  mark_le := by
    have := t.mark_le
    simp only [List.length_append, List.length_take, List.length_cons, List.length_drop]
    omega

/-- Where a mark at `m` is when the columns from `a` to `b` are gone. -/
def cutMark (a b m : ℕ) : ℕ := if m ≤ a then m else if m ≤ b then a else m - (b - a)

/-- Cut the range from column `a` to column `b` out; the cursor goes there. -/
def cut (t : MarkedText α) (a b : ℕ) (hab : a ≤ b) (hb : b ≤ t.text.length) : MarkedText α where
  text := t.text.take a ++ t.text.drop b
  cursor := a
  mark := cutMark a b t.mark
  cursor_le := by
    simp only [List.length_append, List.length_take, List.length_drop]
    omega
  mark_le := by
    have := t.mark_le
    simp only [cutMark, List.length_append, List.length_take, List.length_drop]
    split_ifs <;> omega

/-- Cutting nothing out at the cursor changes nothing. -/
theorem cut_eq_self (ha : a = t.cursor) (hb : b = t.cursor) (hab : a ≤ b)
    (hlen : b ≤ t.text.length) : t.cut a b hab hlen = t := by
  subst ha
  refine ext ?_ rfl ?_
  · change t.text.take t.cursor ++ t.text.drop b = t.text
    rw [hb, List.take_append_drop]
  · change cutMark t.cursor b t.mark = t.mark
    unfold cutMark
    split_ifs <;> omega

end MarkedText

end Pmon.Lib
