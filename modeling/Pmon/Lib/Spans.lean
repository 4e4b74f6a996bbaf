import Mathlib.Algebra.BigOperators.Intervals
import Mathlib.Algebra.Order.Group.Nat
import Mathlib.Tactic.Common

/-!
# Consecutive spans

Spans of the lengths `ℓ 0`, `ℓ 1` and so on follow each other.  A place `n` lies in one of them,
`i`, at a distance `r` from where it begins.

## Key results

- `Within.unique`: a place lies in one span only.
- `Within.next`: where the next place lies.
- `spanMeets_from`: the spans that a range meets.
-/

namespace Pmon.Lib

/-- Where span `i` begins. -/
def spanStart (ℓ : ℕ → ℕ) (i : ℕ) : ℕ := ∑ j ∈ Finset.range i, ℓ j

/-- Place `n` lies in span `i`, at the distance `r` from where it begins. -/
structure Within (ℓ : ℕ → ℕ) (n i r : ℕ) : Prop where
  eq : n = spanStart ℓ i + r
  lt : r < ℓ i

variable {ℓ : ℕ → ℕ} {n i i' j r r' : ℕ}

@[simp] theorem spanStart_zero : spanStart ℓ 0 = 0 := rfl

theorem spanStart_succ (ℓ : ℕ → ℕ) (i : ℕ) : spanStart ℓ (i + 1) = spanStart ℓ i + ℓ i :=
  Finset.sum_range_succ ℓ i

theorem spanStart_mono (h : i ≤ j) : spanStart ℓ i ≤ spanStart ℓ j := by
  induction h with
  | refl => exact Nat.le_refl _
  | step _ ih =>
    rw [spanStart_succ]
    exact Nat.le_trans ih (Nat.le_add_right ..)

/-- A later span begins behind the place. -/
theorem Within.lt_start (h : Within ℓ n i r) (hlt : i < j) : n < spanStart ℓ j := by
  have hmono : spanStart ℓ (i + 1) ≤ spanStart ℓ j := spanStart_mono hlt
  have hend := h.lt
  rw [spanStart_succ] at hmono
  rw [h.eq]
  omega

/-- **A place lies in one span only.** -/
theorem Within.unique (h : Within ℓ n i r) (h' : Within ℓ n i' r') : i = i' ∧ r = r' := by
  have hspan : i = i' := by
    rcases Nat.lt_trichotomy i i' with hlt | heq | hlt
    · have := h.lt_start hlt
      have := h'.eq
      omega
    · exact heq
    · have := h'.lt_start hlt
      have := h.eq
      omega
  subst hspan
  refine ⟨rfl, ?_⟩
  have hn := h.eq
  rw [h'.eq] at hn
  exact (Nat.add_left_cancel hn).symm

theorem Within.zero (h : 0 < ℓ 0) : Within ℓ 0 0 0 := ⟨rfl, h⟩

/-- The next place of the same span. -/
theorem Within.step (h : Within ℓ n i r) (hlt : r + 1 < ℓ i) : Within ℓ (n + 1) i (r + 1) :=
  ⟨by rw [h.eq, Nat.add_assoc], hlt⟩

/-- Behind the last place of a span comes the next span. -/
theorem Within.next (h : Within ℓ n i r) (hlast : r + 1 = ℓ i) (hpos : 0 < ℓ (i + 1)) :
    Within ℓ (n + 1) (i + 1) 0 :=
  ⟨by rw [spanStart_succ, h.eq, ← hlast]; rfl, hpos⟩

/-! ## Ranges -/

variable {lo hi : ℕ}

/-- Span `i` has a place of the range from `lo` to before `hi`. -/
def SpanMeets (ℓ : ℕ → ℕ) (lo hi i : ℕ) : Prop := ∃ n r, Within ℓ n i r ∧ lo ≤ n ∧ n < hi

/-- Place `n` lies in span `i`. -/
def SpanHolds (ℓ : ℕ → ℕ) (i n : ℕ) : Prop := spanStart ℓ i ≤ n ∧ n < spanStart ℓ i + ℓ i

instance (ℓ : ℕ → ℕ) (i n : ℕ) : Decidable (SpanHolds ℓ i n) :=
  inferInstanceAs (Decidable (_ ∧ _))

theorem spanHolds_iff : SpanHolds ℓ i n ↔ ∃ r, Within ℓ n i r := by
  constructor
  · rintro ⟨hlo, hhi⟩
    exact ⟨n - spanStart ℓ i, by omega, by omega⟩
  · rintro ⟨r, heq, hlt⟩
    exact ⟨by omega, by omega⟩

theorem SpanHolds.unique (h : SpanHolds ℓ i n) (h' : SpanHolds ℓ i' n) : i = i' := by
  obtain ⟨r, hr⟩ := spanHolds_iff.mp h
  obtain ⟨r', hr'⟩ := spanHolds_iff.mp h'
  exact (hr.unique hr').1

/-- Spans that are not empty move on. -/
theorem le_spanStart (hpos : ∀ j < i, 0 < ℓ j) : i ≤ spanStart ℓ i := by
  induction i with
  | zero => exact Nat.zero_le _
  | succ i ih =>
    have hbefore := ih fun j hj => hpos j (Nat.lt_succ_of_lt hj)
    have := hpos i (Nat.lt_succ_self i)
    rw [spanStart_succ]
    omega

/-- They overlap. -/
theorem spanMeets_iff :
    SpanMeets ℓ lo hi i ↔ max (spanStart ℓ i) lo < min (spanStart ℓ i + ℓ i) hi := by
  constructor
  · rintro ⟨n, r, hwithin, hlo, hhi⟩
    have heq := hwithin.eq
    have hlt := hwithin.lt
    omega
  · intro h
    refine ⟨max (spanStart ℓ i) lo, max (spanStart ℓ i) lo - spanStart ℓ i, ⟨?_, ?_⟩, ?_, ?_⟩ <;>
      omega

instance (ℓ : ℕ → ℕ) (lo hi i : ℕ) : Decidable (SpanMeets ℓ lo hi i) :=
  decidable_of_iff _ spanMeets_iff.symm

/-- **A range that begins in a span** meets the spans from there on that begin in it. -/
theorem spanMeets_from (h : Within ℓ lo i r) (hlt : lo < hi) :
    SpanMeets ℓ lo hi j ↔ i ≤ j ∧ spanStart ℓ j < hi ∧ 0 < ℓ j := by
  rw [spanMeets_iff]
  have heq := h.eq
  have hr := h.lt
  constructor
  · intro hmeets
    refine ⟨?_, by omega, by omega⟩
    by_contra hbefore
    have hmono : spanStart ℓ (j + 1) ≤ spanStart ℓ i := spanStart_mono (by omega)
    rw [spanStart_succ] at hmono
    omega
  · rintro ⟨hij, hbegin, hpos⟩
    rcases Nat.eq_or_lt_of_le hij with rfl | hafter
    · omega
    · have := h.lt_start hafter
      omega

/-- Spans of one length. -/
theorem spanStart_const (n i : ℕ) : spanStart (fun _ => n) i = i * n := by
  induction i with
  | zero => simp
  | succ i ih => rw [spanStart_succ, ih, Nat.succ_mul]

/-- Spans of the lengths of a list. -/
theorem spanStart_list (l : List ℕ) (k i : ℕ) :
    spanStart (fun q => (l[q]?.getD 0) * k) i = (l.take i).sum * k := by
  induction i with
  | zero => simp
  | succ i ih =>
    rw [spanStart_succ, ih, List.take_add_one, List.sum_append, Nat.add_mul]
    cases l[i]? <;> simp

end Pmon.Lib
