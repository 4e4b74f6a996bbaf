import Mathlib.Algebra.GroupWithZero.Nat
import Mathlib.Algebra.Order.BigOperators.Group.List
import Mathlib.Algebra.Order.Group.Nat
import Mathlib.Data.Nat.Basic
import Mathlib.Tactic.Common

/-!
# Packing

Items with a size and an alignment are put one after the other, each at the next address that its
alignment allows.  If every alignment divides those before it, and every size is a multiple of its
alignment, there is no gap after the first item.

## Key results

- `pack_disjoint`, `pack_within`, `pack_aligned`: where the items come to lie.
- `packEnd_of_dvd`: items in the order of their alignments leave no gap.
- `Tight.apart_iff`: what keeps clear of all of them is before the first or behind the last.
-/

namespace Pmon.Lib

/-! ## §1 Rounding up -/

/-- The next multiple of `a` from `n` on. -/
def alignUp (n a : ℕ) : ℕ := (n + a - 1) / a * a

theorem dvd_alignUp (n a : ℕ) : a ∣ alignUp n a := Nat.dvd_mul_left a _

theorem le_alignUp (n : ℕ) {a : ℕ} (ha : 0 < a) : n ≤ alignUp n a := by
  have h := Nat.div_add_mod (n + a - 1) a
  have hlt := Nat.mod_lt (n + a - 1) ha
  rw [alignUp, Nat.mul_comm]
  omega

theorem alignUp_lt (n : ℕ) {a : ℕ} (ha : 0 < a) : alignUp n a < n + a := by
  have h := Nat.div_mul_le_self (n + a - 1) a
  rw [alignUp]
  omega

/-- It is the least multiple. -/
theorem alignUp_le_of_dvd {n m a : ℕ} (ha : 0 < a) (hm : a ∣ m) (hnm : n ≤ m) :
    alignUp n a ≤ m := by
  obtain ⟨c, rfl⟩ := hm
  have hlt := alignUp_lt n ha
  obtain ⟨d, hd⟩ := dvd_alignUp n a
  rw [hd] at hlt ⊢
  have hcd : d < c + 1 := by
    by_contra hge
    have : a * (c + 1) ≤ a * d := Nat.mul_le_mul_left a (by omega)
    rw [Nat.mul_add] at this
    omega
  exact Nat.mul_le_mul_left a (by omega)

/-- The only multiple of `a` from `n` up to `n + a`. -/
theorem alignUp_unique {n m a : ℕ} (ha : 0 < a) (hm : a ∣ m) (hlo : n ≤ m) (hhi : m < n + a) :
    alignUp n a = m := by
  refine Nat.le_antisymm (alignUp_le_of_dvd ha hm hlo) ?_
  have hle := le_alignUp n ha
  obtain ⟨c, hc⟩ := dvd_alignUp n a
  obtain ⟨d, rfl⟩ := hm
  rw [hc] at hle ⊢
  apply Nat.mul_le_mul_left
  by_contra hlt
  have : a * (c + 1) ≤ a * d := Nat.mul_le_mul_left a (by omega)
  rw [Nat.mul_add] at this
  omega

theorem alignUp_of_dvd {n a : ℕ} (ha : 0 < a) (h : a ∣ n) : alignUp n a = n :=
  Nat.le_antisymm (alignUp_le_of_dvd ha h (Nat.le_refl n)) (le_alignUp n ha)

/-- Between multiples it does not matter that a length is rounded up. -/
theorem lt_add_alignUp_iff {m n x a : ℕ} (ha : 0 < a) (hm : a ∣ m) (hn : a ∣ n) :
    m < n + alignUp x a ↔ m < n + x := by
  have hle := le_alignUp x ha
  constructor
  · intro hlt
    by_contra hbehind
    have hup := alignUp_le_of_dvd ha (Nat.dvd_sub hm hn) (show x ≤ m - n by omega)
    omega
  · intro hlt
    omega

@[simp] theorem alignUp_zero_right (n : ℕ) : alignUp n 0 = 0 := by simp [alignUp]

/-! ## §2 Items -/

structure Item where
  size : ℕ
  align : ℕ
  deriving DecidableEq

/-- What the items take up together. -/
def total (is : List Item) : ℕ := (is.map Item.size).sum

/-- The largest alignment. -/
def widest (is : List Item) : ℕ := is.foldr (fun i m => max i.align m) 0

@[simp] theorem total_nil : total [] = 0 := rfl

@[simp] theorem total_cons (i : Item) (is : List Item) : total (i :: is) = i.size + total is := by
  simp [total]

@[simp] theorem total_append (is js : List Item) : total (is ++ js) = total is + total js := by
  simp [total]

@[simp] theorem widest_nil : widest [] = 0 := rfl

@[simp] theorem widest_cons (i : Item) (is : List Item) :
    widest (i :: is) = max i.align (widest is) := rfl

theorem align_le_widest {i : Item} {is : List Item} (h : i ∈ is) : i.align ≤ widest is := by
  induction is with
  | nil => simp at h
  | cons j is ih =>
    rw [widest_cons]
    rcases List.mem_cons.mp h with rfl | hmem
    · exact Nat.le_max_left _ _
    · exact Nat.le_trans (ih hmem) (Nat.le_max_right _ _)

/-- The largest alignment is that of an item. -/
theorem widest_mem {is : List Item} (h : is ≠ []) : ∃ i ∈ is, widest is = i.align := by
  induction is with
  | nil => exact absurd rfl h
  | cons j is ih =>
    rw [widest_cons]
    by_cases hnil : is = []
    · subst hnil
      exact ⟨j, List.mem_cons_self, by simp⟩
    · obtain ⟨i, hi, hw⟩ := ih hnil
      rcases Nat.le_total j.align (widest is) with hle | hge
      · exact ⟨i, List.mem_cons_of_mem _ hi, by rw [Nat.max_eq_right hle, hw]⟩
      · exact ⟨j, List.mem_cons_self, Nat.max_eq_left hge⟩

theorem size_le_total {i : Item} {is : List Item} (h : i ∈ is) : i.size ≤ total is := by
  induction is with
  | nil => simp at h
  | cons j is ih =>
    rw [total_cons]
    rcases List.mem_cons.mp h with rfl | hmem
    · omega
    · have := ih hmem
      omega

theorem total_perm {is js : List Item} (h : is.Perm js) : total is = total js :=
  (h.map Item.size).sum_eq

theorem widest_perm {is js : List Item} (h : is.Perm js) : widest is = widest js := by
  induction h with
  | nil => rfl
  | cons i _ ih => simp only [widest_cons, ih]
  | swap i j is =>
    simp only [widest_cons]
    omega
  | trans _ _ ih₁ ih₂ => exact ih₁.trans ih₂

/-! ## §3 Packing -/

/-- The items from `lo` on, each with its address. -/
def pack (lo : ℕ) : List Item → List (ℕ × Item)
  | [] => []
  | i :: is => (alignUp lo i.align, i) :: pack (alignUp lo i.align + i.size) is

/-- Where the last item ends. -/
def packEnd (lo : ℕ) : List Item → ℕ
  | [] => lo
  | i :: is => packEnd (alignUp lo i.align + i.size) is

/-- The items together end no earlier than without gaps. -/
theorem add_total_le_packEnd {is : List Item} (hpos : ∀ i ∈ is, 0 < i.align) (lo : ℕ) :
    lo + total is ≤ packEnd lo is := by
  induction is generalizing lo with
  | nil => simp [packEnd]
  | cons i is ih =>
    have hle := le_alignUp lo (hpos i List.mem_cons_self)
    have := ih (fun j hj => hpos j (List.mem_cons_of_mem _ hj)) (alignUp lo i.align + i.size)
    rw [total_cons, packEnd]
    omega

theorem le_packEnd {is : List Item} (hpos : ∀ i ∈ is, 0 < i.align) (lo : ℕ) :
    lo ≤ packEnd lo is := by
  have := add_total_le_packEnd hpos lo
  omega

/-- **Every item lies between the start and the end.** -/
theorem pack_within {is : List Item} (hpos : ∀ i ∈ is, 0 < i.align) (lo : ℕ) :
    ∀ p ∈ pack lo is, lo ≤ p.1 ∧ p.1 + p.2.size ≤ packEnd lo is := by
  induction is generalizing lo with
  | nil => simp [pack]
  | cons i is ih =>
    have hle := le_alignUp lo (hpos i List.mem_cons_self)
    have hpos' : ∀ j ∈ is, 0 < j.align := fun j hj => hpos j (List.mem_cons_of_mem _ hj)
    intro p hp
    rcases List.mem_cons.mp hp with rfl | hmem
    · exact ⟨hle, le_packEnd hpos' _⟩
    · obtain ⟨hlo, hhi⟩ := ih hpos' _ p hmem
      exact ⟨by omega, hhi⟩

/-- **No two items overlap.** -/
theorem pack_disjoint {is : List Item} (hpos : ∀ i ∈ is, 0 < i.align) (lo : ℕ) :
    (pack lo is).Pairwise fun p q => p.1 + p.2.size ≤ q.1 := by
  induction is generalizing lo with
  | nil => simp [pack]
  | cons i is ih =>
    have hpos' : ∀ j ∈ is, 0 < j.align := fun j hj => hpos j (List.mem_cons_of_mem _ hj)
    refine List.pairwise_cons.mpr ⟨fun q hq => ?_, ih hpos' _⟩
    exact (pack_within hpos' _ q hq).1

/-- **Every item is aligned.** -/
theorem pack_aligned (is : List Item) (lo : ℕ) : ∀ p ∈ pack lo is, p.2.align ∣ p.1 := by
  induction is generalizing lo with
  | nil => simp [pack]
  | cons i is ih =>
    intro p hp
    rcases List.mem_cons.mp hp with rfl | hmem
    · exact dvd_alignUp _ _
    · exact ih _ p hmem

/-- The order in which there are no gaps: every alignment divides those before it. -/
structure Tight (is : List Item) : Prop where
  pos : ∀ i ∈ is, 0 < i.align
  whole : ∀ i ∈ is, i.align ∣ i.size
  descending : is.Pairwise fun i j => j.align ∣ i.align

theorem Tight.tail {i : Item} {is : List Item} (h : Tight (i :: is)) : Tight is where
  pos := fun j hj => h.pos j (List.mem_cons_of_mem _ hj)
  whole := fun j hj => h.whole j (List.mem_cons_of_mem _ hj)
  descending := (List.pairwise_cons.mp h.descending).2

/-- **From an address that all alignments divide there are no gaps.** -/
theorem packEnd_of_dvd {is : List Item} (h : Tight is) {lo : ℕ} (hlo : ∀ i ∈ is, i.align ∣ lo) :
    packEnd lo is = lo + total is := by
  induction is generalizing lo with
  | nil => simp [packEnd]
  | cons i is ih =>
    have hi := hlo i List.mem_cons_self
    rw [packEnd, alignUp_of_dvd (h.pos i List.mem_cons_self) hi, ih h.tail ?_, total_cons]
    · omega
    · -- the next address is a multiple of the alignment of `i`, so of every one after it
      intro j hj
      have hji : j.align ∣ i.align := (List.pairwise_cons.mp h.descending).1 j hj
      exact Nat.dvd_trans hji (Nat.dvd_add hi (h.whole i List.mem_cons_self))

/-- Leaving items out does not make gaps. -/
theorem Tight.sublist {is js : List Item} (h : Tight is) (hsub : js.Sublist is) : Tight js where
  pos := fun i hi => h.pos i (hsub.subset hi)
  whole := fun i hi => h.whole i (hsub.subset hi)
  descending := h.descending.sublist hsub

/-- The address of the first item. -/
def packStart (lo : ℕ) : List Item → ℕ
  | [] => lo
  | i :: _ => alignUp lo i.align

theorem pack_packStart {is : List Item} (hpos : ∀ i ∈ is, 0 < i.align) (lo : ℕ) :
    pack (packStart lo is) is = pack lo is := by
  cases is with
  | nil => rfl
  | cons i is =>
    simp only [packStart, pack,
      alignUp_of_dvd (hpos i List.mem_cons_self) (dvd_alignUp lo i.align)]

theorem packEnd_packStart {is : List Item} (hpos : ∀ i ∈ is, 0 < i.align) (lo : ℕ) :
    packEnd (packStart lo is) is = packEnd lo is := by
  cases is with
  | nil => rfl
  | cons i is =>
    simp only [packStart, packEnd,
      alignUp_of_dvd (hpos i List.mem_cons_self) (dvd_alignUp lo i.align)]

/-- The first address is one that all alignments divide. -/
theorem Tight.dvd_packStart {is : List Item} (h : Tight is) (lo : ℕ) :
    ∀ i ∈ is, i.align ∣ packStart lo is := by
  cases is with
  | nil => simp
  | cons i is =>
    intro j hj
    rcases List.mem_cons.mp hj with rfl | hmem
    · exact dvd_alignUp _ _
    · exact Nat.dvd_trans ((List.pairwise_cons.mp h.descending).1 j hmem) (dvd_alignUp _ _)

/-- **What keeps clear of items without gaps** is before the first or behind the last of them. -/
theorem Tight.apart_iff {is : List Item} (h : Tight is) (hsize : ∀ i ∈ is, 0 < i.size) {lo : ℕ}
    (hlo : ∀ i ∈ is, i.align ∣ lo) {a size : ℕ} (hpos : 0 < size) :
    (∀ p ∈ pack lo is, a + size ≤ p.1 ∨ p.1 + p.2.size ≤ a) ↔
      total is = 0 ∨ a + size ≤ lo ∨ lo + total is ≤ a := by
  induction is generalizing lo with
  | nil => simp [pack]
  | cons i is ih =>
    have hi := hlo i List.mem_cons_self
    have hisize := hsize i List.mem_cons_self
    have hnext : ∀ j ∈ is, j.align ∣ lo + i.size := fun j hj =>
      have hji : j.align ∣ i.align := (List.pairwise_cons.mp h.descending).1 j hj
      Nat.dvd_trans hji (Nat.dvd_add hi (h.whole i List.mem_cons_self))
    rw [pack, alignUp_of_dvd (h.pos i List.mem_cons_self) hi, List.forall_mem_cons, total_cons,
      ih h.tail (fun j hj => hsize j (List.mem_cons_of_mem _ hj)) hnext]
    dsimp only
    -- a place between the first item and the others would have to be empty
    constructor
    · rintro ⟨hfirst, hrest⟩
      omega
    · intro hout
      omega

end Pmon.Lib
