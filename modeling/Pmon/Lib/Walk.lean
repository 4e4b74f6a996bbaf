import Mathlib.Data.Set.Finite.Basic
import Mathlib.Data.Fintype.Pigeonhole
import Mathlib.Logic.Relation
import Mathlib.Order.Basic

/-!
# Walks that may come back

A walk goes from each place to one next place, or stops.  Where there are finitely many places, the
one way for it not to stop is to come back to a place where it has been, from where it takes the
same way again and again.

## Key results

- `stops_iff`: a walk stops if and only if it comes to no place that leads back to itself.
-/

namespace Pmon.Lib

section

variable {α : Type*} (next : α → Option α)

/-- The walk goes from `a` to `b`. -/
def Goes (a b : α) : Prop := next a = some b

/-- The place after `n` steps, unless the walk has stopped. -/
def after : ℕ → α → Option α
  | 0, a => some a
  | n + 1, a => (next a).bind (after n)

/-- The walk stops. -/
def Stops (a : α) : Prop := ∃ n, after next n a = none

end

variable {α : Type*} {next : α → Option α} {a b c : α} {n : ℕ}

theorem after_succ (n : ℕ) (a : α) : after next (n + 1) a = (after next n a).bind next := by
  induction n generalizing a with
  | zero =>
    rw [after, after, Option.bind_some]
    cases next a <;> rfl
  | succ n ih =>
    rw [after]
    conv_rhs => rw [after]
    cases next a with
    | none => rfl
    | some b => exact ih b

/-- Where the walk is after `n` steps, it has come to. -/
theorem reaches_of_after (h : after next n a = some b) :
    Relation.ReflTransGen (Goes next) a b := by
  induction n generalizing b with
  | zero =>
    cases h
    exact .refl
  | succ n ih =>
    rw [after_succ, Option.bind_eq_some_iff] at h
    obtain ⟨c, hc, hnext⟩ := h
    exact (ih hc).tail hnext

/-- A place that leads round is followed by one. -/
theorem goes_round (h : ∃ b, Relation.ReflTransGen (Goes next) a b ∧
      Relation.TransGen (Goes next) b b) :
    ∃ c, Goes next a c ∧ ∃ b, Relation.ReflTransGen (Goes next) c b ∧
      Relation.TransGen (Goes next) b b := by
  obtain ⟨b, hreach, hround⟩ := h
  rcases Relation.ReflTransGen.cases_head hreach with rfl | ⟨c, hgo, hrest⟩
  · obtain ⟨c, hgo, hback⟩ := Relation.TransGen.head'_iff.mp hround
    exact ⟨c, hgo, a, hback, hround⟩
  · exact ⟨c, hgo, b, hrest, hround⟩

/-- From such a place the walk does not stop. -/
theorem not_stops_of_round (h : ∃ b, Relation.ReflTransGen (Goes next) a b ∧
      Relation.TransGen (Goes next) b b) : ¬ Stops next a := by
  rintro ⟨n, hn⟩
  induction n generalizing a with
  | zero => cases hn
  | succ n ih =>
    obtain ⟨c, hgo, hc⟩ := goes_round h
    rw [after, show next a = some c from hgo, Option.bind_some] at hn
    exact ih hc hn

/-- A walk that does not stop comes to one place twice. -/
theorem round_of_not_stops {S : Set α} (hS : S.Finite) (hnext : ∀ a b, Goes next a b → b ∈ S)
    (h : ¬ Stops next a) :
    ∃ b, Relation.ReflTransGen (Goes next) a b ∧ Relation.TransGen (Goes next) b b := by
  have hplace : ∀ n, ∃ b, after next n a = some b := fun n =>
    Option.ne_none_iff_exists'.mp fun hn => h ⟨n, hn⟩
  choose f hf using hplace
  have hgo : ∀ n, Goes next (f n) (f (n + 1)) := by
    intro n
    have hsucc := hf (n + 1)
    rw [after_succ, hf n, Option.bind_some] at hsucc
    exact hsucc
  -- two of the places are one, since all but the first are in the finite set
  have : Finite S := hS
  obtain ⟨m, n, hne, heq⟩ := Finite.exists_ne_map_eq_of_infinite
    fun n : ℕ => (⟨f (n + 1), hnext _ _ (hgo n)⟩ : S)
  have heq' : f (m + 1) = f (n + 1) := congrArg Subtype.val heq
  have hpath : ∀ k d, Relation.TransGen (Goes next) (f k) (f (k + d + 1)) := by
    intro k d
    induction d with
    | zero => exact .single (hgo k)
    | succ d ih => exact ih.tail (hgo (k + d + 1))
  rcases lt_or_gt_of_ne hne with hlt | hlt
  · refine ⟨f (m + 1), reaches_of_after (hf _), ?_⟩
    obtain ⟨d, rfl⟩ : ∃ d, n = m + d + 1 := ⟨n - m - 1, by omega⟩
    have hround := hpath (m + 1) d
    rwa [show m + 1 + d + 1 = m + d + 1 + 1 by omega, ← heq'] at hround
  · refine ⟨f (n + 1), reaches_of_after (hf _), ?_⟩
    obtain ⟨d, rfl⟩ : ∃ d, m = n + d + 1 := ⟨m - n - 1, by omega⟩
    have hround := hpath (n + 1) d
    rwa [show n + 1 + d + 1 = n + d + 1 + 1 by omega, heq'] at hround

/-- **Walks** over finitely many places stop if and only if they come to no place that leads back
    to itself. -/
theorem stops_iff {S : Set α} (hS : S.Finite) (hnext : ∀ a b, Goes next a b → b ∈ S) :
    Stops next a ↔
      ∀ b, Relation.ReflTransGen (Goes next) a b → ¬ Relation.TransGen (Goes next) b b := by
  constructor
  · intro h b hreach hround
    exact not_stops_of_round ⟨b, hreach, hround⟩ h
  · intro h
    by_contra hstops
    obtain ⟨b, hreach, hround⟩ := round_of_not_stops hS hnext hstops
    exact h b hreach hround

end Pmon.Lib
