import Mathlib.Data.List.Basic
import Mathlib.Data.List.Nodup
import Mathlib.Logic.Function.Basic

/-!
# Traps in a memory

A debugger plants a trap at each of some addresses and remembers what stood there; later it
puts back what it remembers, where the trap still stands.  With the addresses pairwise different
this gives every cell back that nobody else has changed in between, in whatever order.

## Key results

- `plant_apply`, `saved_eq`: the memory with the traps, and what is remembered.
- `lift_plant`: planting and lifting is the identity on the cells that were left alone.
-/

namespace Pmon.Lib

variable {A W : Type*} [DecidableEq A] {trap w : W} {m m' : A → W} {a : A} {as : List A}

/-- Plant the traps one after the other. -/
def plant (trap : W) : List A → (A → W) → A → W
  | [], m => m
  | a :: as, m => plant trap as (Function.update m a trap)

/-- What is remembered of each address. -/
def saved (trap : W) : List A → (A → W) → List (A × W)
  | [], _ => []
  | a :: as, m => (a, m a) :: saved trap as (Function.update m a trap)

theorem plant_append (as bs : List A) :
    plant trap (as ++ bs) m = plant trap bs (plant trap as m) := by
  induction as generalizing m with
  | nil => rfl
  | cons a as ih => exact ih

/-- **The memory with the traps.** -/
theorem plant_apply : plant trap as m a = if a ∈ as then trap else m a := by
  induction as generalizing m with
  | nil => rfl
  | cons b as ih =>
    rw [plant, ih]
    by_cases hmem : a ∈ as
    · rw [if_pos hmem, if_pos (List.mem_cons_of_mem b hmem)]
    · rcases eq_or_ne a b with rfl | hne
      · rw [if_neg hmem, Function.update_self, if_pos List.mem_cons_self]
      · rw [if_neg hmem, Function.update_of_ne hne, if_neg (by simp [hne, hmem])]

/-- **What is remembered**, when no address comes twice. -/
theorem saved_eq (h : as.Nodup) : saved trap as m = as.map fun a => (a, m a) := by
  induction as generalizing m with
  | nil => rfl
  | cons a as ih =>
    obtain ⟨hmem, hnodup⟩ := List.nodup_cons.mp h
    rw [saved, ih hnodup, List.map_cons]
    congr 1
    refine List.map_congr_left fun b hb => ?_
    have hne : b ≠ a := fun heq => hmem (heq ▸ hb)
    rw [Function.update_of_ne hne]

/-! ## Lifting -/

variable [DecidableEq W] {ps qs : List (A × W)}

/-- Put back what is remembered, where the trap stands. -/
def lift (trap : W) : List (A × W) → (A → W) → A → W
  | [], m => m
  | (a, w) :: ps, m => lift trap ps (if m a = trap then Function.update m a w else m)

theorem lift_append : lift trap (ps ++ qs) m = lift trap qs (lift trap ps m) := by
  induction ps generalizing m with
  | nil => rfl
  | cons p ps ih => exact ih

theorem lift_of_not_mem (h : a ∉ ps.map Prod.fst) : lift trap ps m a = m a := by
  induction ps generalizing m with
  | nil => rfl
  | cons p ps ih =>
    rw [List.map_cons, List.mem_cons, not_or] at h
    rw [lift, ih h.2]
    split
    · exact Function.update_of_ne h.1 _ _
    · rfl

theorem lift_of_mem (hnodup : (ps.map Prod.fst).Nodup) (h : (a, w) ∈ ps) :
    lift trap ps m a = if m a = trap then w else m a := by
  induction ps generalizing m with
  | nil => cases h
  | cons p ps ih =>
    obtain ⟨b, v⟩ := p
    obtain ⟨hmem, hnodup⟩ := List.nodup_cons.mp hnodup
    rw [lift]
    rcases List.mem_cons.mp h with heq | hps
    · cases heq
      rw [lift_of_not_mem hmem]
      split
      · exact Function.update_self _ _ _
      · rfl
    · have hne : a ≠ b := by
        rintro rfl
        exact hmem (List.mem_map.mpr ⟨(a, w), hps, rfl⟩)
      rw [ih hnodup hps]
      split
      · rw [Function.update_of_ne hne]
      · rfl

/-- **Planting and lifting**: a cell that was left alone in between holds what it held. -/
theorem lift_plant (hnodup : (ps.map Prod.fst).Nodup) (hmem : ∀ a, a ∈ ps.map Prod.fst ↔ a ∈ as)
    (hsaved : ∀ p ∈ ps, p.2 = m p.1) (ha : m' a = plant trap as m a) :
    lift trap ps m' a = m a := by
  rw [plant_apply] at ha
  by_cases hin : a ∈ as
  · rw [if_pos hin] at ha
    obtain ⟨⟨b, w⟩, hp, rfl⟩ := List.mem_map.mp ((hmem a).mpr hin)
    rw [lift_of_mem hnodup hp, if_pos ha]
    exact hsaved _ hp
  · rw [if_neg hin] at ha
    rw [lift_of_not_mem fun hps => hin ((hmem a).mp hps), ha]

end Pmon.Lib
