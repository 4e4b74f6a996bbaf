import Mathlib.Data.List.FinRange
import Mathlib.Data.List.Perm.Basic
import Mathlib.Logic.Function.Basic

/-!
# Chained hash tables

A table of `n` chains is a function from bucket numbers to lists.  `elems t` lists all its
elements, chain by chain.  `elems_split` says where one chain stands among them; what a change
of one chain does to the whole follows from there.
-/

namespace Pmon.Lib.Buckets

variable {α β : Type*} {n : ℕ}

/-- All elements, chain by chain. -/
def elems (t : Fin n → List α) : List α := (List.finRange n).flatMap t

@[simp] theorem mem_elems {t : Fin n → List α} {a : α} : a ∈ elems t ↔ ∃ i, a ∈ t i := by
  simp [elems]

@[simp] theorem elems_empty : elems (fun _ : Fin n => ([] : List α)) = [] := by
  simp [elems]

/-- **One chain among all elements.** -/
theorem elems_split (t : Fin n → List α) (i : Fin n) :
    ∃ front back, ∀ l, elems (Function.update t i l) = front ++ (l ++ back) := by
  obtain ⟨before, behind, hsplit⟩ := List.append_of_mem (List.mem_finRange i)
  have hnodup := List.nodup_finRange n
  rw [hsplit, List.nodup_append, List.nodup_cons] at hnodup
  obtain ⟨-, ⟨hbehind, -⟩, hbefore⟩ := hnodup
  refine ⟨before.flatMap t, behind.flatMap t, fun l => ?_⟩
  have hkeep : ∀ is : List (Fin n), i ∉ is → is.flatMap (Function.update t i l) = is.flatMap t := by
    intro is his
    refine List.flatMap_congr fun j hj => Function.update_of_ne ?_ ..
    rintro rfl
    exact his hj
  rw [elems, hsplit, List.flatMap_append, List.flatMap_cons, Function.update_self,
    hkeep before fun h => hbefore i h i List.mem_cons_self rfl, hkeep behind hbehind]

/-- **Chaining an element.** -/
theorem elems_cons_perm (t : Fin n → List α) (i : Fin n) (a : α) :
    (elems (Function.update t i (a :: t i))).Perm (a :: elems t) := by
  obtain ⟨front, back, hsplit⟩ := elems_split t i
  have hall := hsplit (t i)
  rw [Function.update_eq_self] at hall
  rw [hsplit, hall]
  exact List.perm_middle

/-- **Changing one chain** in a way that a function does not see. -/
theorem map_elems_update (t : Fin n → List α) (i : Fin n) {l : List α} {g : α → β}
    (h : l.map g = (t i).map g) :
    (elems (Function.update t i l)).map g = (elems t).map g := by
  obtain ⟨front, back, hsplit⟩ := elems_split t i
  have hall := hsplit (t i)
  rw [Function.update_eq_self] at hall
  rw [hsplit, hall, List.map_append, List.map_append, List.map_append, List.map_append, h]

/-- Changing the elements of one chain, by a function that leaves those of the others. -/
theorem elems_update_map (t : Fin n → List α) (i : Fin n) {f : α → α}
    (h : ∀ j, j ≠ i → ∀ a ∈ t j, f a = a) :
    elems (Function.update t i ((t i).map f)) = (elems t).map f := by
  have hall : Function.update t i ((t i).map f) = fun j => (t j).map f := by
    funext j
    by_cases hj : j = i
    · subst hj
      rw [Function.update_self]
    · rw [Function.update_of_ne hj]
      exact ((List.map_congr_left (h j hj)).trans (List.map_id _)).symm
  rw [hall, elems, elems, List.map_flatMap]

end Pmon.Lib.Buckets
