import Mathlib.Data.Nat.ModEq
import Mathlib.Logic.Function.Basic
import Mathlib.Tactic.Common

/-!
# Rings

A queue in an array of a power of two places: where the first element is, how many there are, and
the mask that brings a place back into the array.  The mask is also the most that the queue holds,
one less than its places.

## Key results

- `RingQueue.Valid.toList_put`: an element is put behind the others.
- `RingQueue.Valid.toList_get`: the element that is got is the one in front.
-/

namespace Pmon.Lib

/-- `Queue` of a C program. -/
structure RingQueue (α : Type*) where
  first : ℕ
  count : ℕ
  limit : ℕ
  dat : ℕ → α

namespace RingQueue

variable {α : Type*} {q : RingQueue α}

/-- An empty queue with a mask. -/
def empty (limit : ℕ) (dat : ℕ → α) : RingQueue α := ⟨0, 0, limit, dat⟩

/-- The room that is left. -/
def space (q : RingQueue α) : ℕ := q.limit - q.count

def put (q : RingQueue α) (a : α) : RingQueue α :=
  { q with
    dat := Function.update q.dat ((q.first + q.count) &&& q.limit) a, count := q.count + 1 }

/-- The element in front, and the queue behind it. -/
def get (q : RingQueue α) : α × RingQueue α :=
  (q.dat q.first, { q with first := (q.first + 1) &&& q.limit, count := q.count - 1 })

/-- The elements in the queue. -/
def toList (q : RingQueue α) : List α :=
  (List.range q.count).map fun i => q.dat ((q.first + i) &&& q.limit)

/-- The mask is one less than a power of two, and the queue is within it. -/
structure Valid (q : RingQueue α) : Prop where
  mask : ∃ k, q.limit = 2 ^ k - 1
  first_le : q.first ≤ q.limit
  count_le : q.count ≤ q.limit

theorem Valid.and_eq (h : q.Valid) (x : ℕ) : x &&& q.limit = x % (q.limit + 1) := by
  obtain ⟨k, hk⟩ := h.mask
  have hpos : 0 < 2 ^ k := Nat.two_pow_pos k
  rw [hk, Nat.and_two_pow_sub_one_eq_mod, Nat.sub_add_cancel hpos]

theorem length_toList (q : RingQueue α) : q.toList.length = q.count := by
  rw [toList, List.length_map, List.length_range]

theorem empty_valid (k : ℕ) (dat : ℕ → α) : (empty (2 ^ k - 1) dat).Valid :=
  ⟨⟨k, rfl⟩, Nat.zero_le _, Nat.zero_le _⟩

theorem toList_empty (limit : ℕ) (dat : ℕ → α) : (empty limit dat).toList = [] := rfl

/-- **An element is put** behind the others. -/
theorem Valid.put (h : q.Valid) (hroom : q.count < q.limit) (a : α) : (q.put a).Valid :=
  ⟨h.mask, h.first_le, hroom⟩

theorem Valid.toList_put (h : q.Valid) (hroom : q.count < q.limit) (a : α) :
    (q.put a).toList = q.toList ++ [a] := by
  have hnew : ∀ i < q.count, (q.put a).dat ((q.first + i) &&& q.limit) =
      q.dat ((q.first + i) &&& q.limit) := by
    intro i hi
    apply Function.update_of_ne
    -- the places of the elements are different ones
    intro heq
    rw [h.and_eq, h.and_eq] at heq
    have hmod : i ≡ q.count [MOD q.limit + 1] := Nat.ModEq.add_left_cancel' q.first heq
    have hsame := Nat.ModEq.eq_of_lt_of_lt hmod (by omega) (by omega)
    omega
  change (List.range (q.count + 1)).map (fun i => (q.put a).dat ((q.first + i) &&& q.limit)) = _
  rw [List.range_succ, List.map_append]
  congr 1
  · apply List.map_congr_left
    intro i hi
    exact hnew i (List.mem_range.mp hi)
  · exact congrArg (fun b => [b]) (Function.update_self _ _ _)

/-- **The element in front** is the first one that has been put. -/
theorem Valid.toList_get (h : q.Valid) (hsome : 0 < q.count) :
    q.toList = q.get.1 :: q.get.2.toList := by
  obtain ⟨n, hn⟩ := Nat.exists_eq_succ_of_ne_zero (Nat.pos_iff_ne_zero.mp hsome)
  have hfirst : q.first &&& q.limit = q.first := by
    rw [h.and_eq, Nat.mod_eq_of_lt (Nat.lt_succ_of_le h.first_le)]
  change (List.range q.count).map (fun i => q.dat ((q.first + i) &&& q.limit)) = q.dat q.first ::
    (List.range (q.count - 1)).map
      fun i => q.dat ((((q.first + 1) &&& q.limit) + i) &&& q.limit)
  rw [hn, List.range_succ_eq_map, List.map_cons, List.map_map, Nat.add_zero, hfirst,
    Nat.succ_sub_one]
  congr 1
  apply List.map_congr_left
  intro i _
  rw [Function.comp_apply, h.and_eq, h.and_eq, h.and_eq, Nat.mod_add_mod]
  congr 2
  omega

theorem Valid.get (h : q.Valid) : q.get.2.Valid := by
  refine ⟨h.mask, ?_, ?_⟩
  · change (q.first + 1) &&& q.limit ≤ q.limit
    exact Nat.and_le_right
  · have hle := h.count_le
    change q.count - 1 ≤ q.limit
    omega

@[simp] theorem put_limit (q : RingQueue α) (a : α) : (q.put a).limit = q.limit := rfl

@[simp] theorem put_count (q : RingQueue α) (a : α) : (q.put a).count = q.count + 1 := rfl

@[simp] theorem get_limit (q : RingQueue α) : q.get.2.limit = q.limit := rfl

@[simp] theorem get_count (q : RingQueue α) : q.get.2.count = q.count - 1 := rfl

end RingQueue

end Pmon.Lib
