import Mathlib.Data.Nat.Count
import Mathlib.Data.Nat.ModEq
import Mathlib.Data.Nat.Nth
import Mathlib.Tactic.Ring

/-!
# Going round

`N` places in a circle, some of which count.  A walk that starts at the place `x % N` and goes on by
one place each time is at `y % N` for `y = x`, `x + 1` and so on; `rank N p y` says how many places
that count are in front of `y`.  The next `m` of them after `x` are those of the ranks from
`rank N p x` on, so that two walks meet exactly when ranks agree up to a round.

`gap g a b` is the way from rank `a` on to rank `b`.
-/

namespace Pmon.Lib

/-! ## §1 Ranks -/

section

variable (N : ℕ) (p : ℕ → Prop) [DecidablePred p]

/-- The number of places that count in front of `y`. -/
def rank (y : ℕ) : ℕ := Nat.count (fun k => p (k % N)) y

end

variable {N g m n a b x y z : ℕ} {p : ℕ → Prop} [DecidablePred p]

theorem rank_succ_of_pos (hp : p (y % N)) : rank N p (y + 1) = rank N p y + 1 := by
  simp [rank, Nat.count_succ, hp]

theorem rank_succ_of_neg (hp : ¬ p (y % N)) : rank N p (y + 1) = rank N p y := by
  simp [rank, Nat.count_succ, hp]

theorem rank_mono (hle : y ≤ z) : rank N p y ≤ rank N p z := Nat.count_monotone _ hle

theorem rank_lt (hp : p (y % N)) (hlt : y < z) : rank N p y < rank N p z :=
  Nat.count_strict_mono hp hlt

theorem rank_inj (hy : p (y % N)) (hz : p (z % N)) (heq : rank N p y = rank N p z) : y = z :=
  Nat.count_injective (p := fun k => p (k % N)) hy hz heq

/-- One round. -/
theorem rank_add_round (y : ℕ) : rank N p (N + y) = rank N p N + rank N p y := by
  simp [rank, Nat.count_add]

theorem rank_add_rounds (k y : ℕ) : rank N p (N * k + y) = rank N p N * k + rank N p y := by
  induction k with
  | zero => simp
  | succ k ih =>
    have hround : N * (k + 1) + y = N + (N * k + y) := by ring
    rw [hround, rank_add_round, ih]
    ring

/-- The rank in the round that is not complete. -/
theorem rank_eq (y : ℕ) : rank N p y = rank N p N * (y / N) + rank N p (y % N) := by
  conv_lhs => rw [← Nat.div_add_mod y N]
  rw [rank_add_rounds]

theorem rank_mod_lt (hN : 0 < N) (hp : p (y % N)) : rank N p (y % N) < rank N p N :=
  rank_lt (by rwa [Nat.mod_mod]) (Nat.mod_lt y hN)

/-- Two places that count are the same exactly when their ranks are, up to a round. -/
theorem mod_eq_iff_rank (hN : 0 < N) (hy : p (y % N)) (hz : p (z % N)) :
    y % N = z % N ↔ rank N p y % rank N p N = rank N p z % rank N p N := by
  have hrank : ∀ w, p (w % N) → rank N p w % rank N p N = rank N p (w % N) := by
    intro w hw
    rw [rank_eq w, Nat.mul_add_mod, Nat.mod_eq_of_lt (rank_mod_lt hN hw)]
  rw [hrank y hy, hrank z hz]
  constructor
  · intro heq
    rw [heq]
  · intro heq
    exact rank_inj (by rwa [Nat.mod_mod]) (by rwa [Nat.mod_mod]) heq

/-- All ranks are taken, when there is a place that counts. -/
theorem exists_rank (hN : 0 < N) (hpos : 0 < rank N p N) (x i : ℕ) :
    ∃ y, x ≤ y ∧ p (y % N) ∧ rank N p y = rank N p x + i := by
  have hinf : (Set.ofPred fun k => p (k % N)).Infinite := by
    apply Set.infinite_of_forall_exists_gt
    intro w
    obtain ⟨c, hlt, hc⟩ := Nat.count_ne_iff_exists.mp (Nat.pos_iff_ne_zero.mp hpos)
    refine ⟨N * (w + 1) + c, ?_, ?_⟩
    · change p ((N * (w + 1) + c) % N)
      rwa [Nat.mul_add_mod]
    · have hle : w + 1 ≤ N * (w + 1) := Nat.le_mul_of_pos_left _ hN
      omega
  refine ⟨Nat.nth _ (rank N p x + i), ?_, Nat.nth_mem_of_infinite hinf _,
    Nat.count_nth_of_infinite hinf _⟩
  apply Nat.le_trans (Nat.le_nth_count hinf x)
  exact Nat.nth_monotone hinf (Nat.le_add_right _ _)

/-! ## §2 Two walks -/

/-- The way from `a` on to `b`, on a circle of `g` ranks. -/
def gap (g a b : ℕ) : ℕ := (b + (g - a % g)) % g

theorem add_gap_mod (hg : 0 < g) : (a + gap g a b) % g = b % g := by
  have ha := Nat.mod_lt a hg
  have hdiv := Nat.div_add_mod a g
  unfold gap
  rw [Nat.add_mod_mod]
  have hsum : a + (b + (g - a % g)) = b + g * (a / g + 1) := by
    rw [Nat.mul_add]
    omega
  rw [hsum, Nat.add_mul_mod_self_left]

theorem gap_lt (hg : 0 < g) : gap g a b < g := Nat.mod_lt _ hg

/-- There and back is one round at most. -/
theorem gap_add_gap_le (hg : 0 < g) : gap g a b + gap g b a ≤ g := by
  have hmod : (gap g a b + gap g b a) % g = 0 := by
    have hround : (a + (gap g a b + gap g b a)) % g = a % g := by
      rw [← Nat.add_assoc, Nat.add_mod, add_gap_mod hg, ← Nat.add_mod, add_gap_mod hg]
    have hcancel : a + (gap g a b + gap g b a) ≡ a + 0 [MOD g] := hround
    exact Nat.ModEq.add_left_cancel' a hcancel
  have hlt := gap_lt (a := a) (b := b) hg
  have hlt' := gap_lt (a := b) (b := a) hg
  obtain ⟨k, hk⟩ := Nat.dvd_of_mod_eq_zero hmod
  have hsmall : k < 2 := by
    by_contra hbig
    have hmul : g * 2 ≤ g * k := Nat.mul_le_mul_left g (by omega)
    omega
  have hone : g * k ≤ g * 1 := Nat.mul_le_mul_left g (by omega)
  omega

/-- Two walks of `m` and `n` steps do not meet exactly when each ends before the other begins. -/
theorem steps_apart_iff (hg : 0 < g) (hm : 0 < m) (hn : 0 < n) :
    (∀ i < m, ∀ j < n, (a + i) % g ≠ (b + j) % g) ↔ m ≤ gap g a b ∧ n ≤ gap g b a := by
  constructor
  · intro hapart
    constructor
    · by_contra hlt
      exact hapart (gap g a b) (by omega) 0 hn (by rw [add_gap_mod hg, Nat.add_zero])
    · by_contra hlt
      exact hapart 0 hm (gap g b a) (by omega) (by rw [add_gap_mod hg, Nat.add_zero])
  · rintro ⟨hma, hnb⟩ i hi j hj heq
    have hsum := gap_add_gap_le (a := a) (b := b) hg
    -- from `a`, the second walk is at `gap g a b + j`, and that is within the round
    have hmeet : a + i ≡ a + (gap g a b + j) [MOD g] := by
      unfold Nat.ModEq
      rw [heq, ← Nat.add_assoc, Nat.add_mod (a + gap g a b), add_gap_mod hg, ← Nat.add_mod]
    have hi' : i % g = (gap g a b + j) % g := Nat.ModEq.add_left_cancel' a hmeet
    rw [Nat.mod_eq_of_lt (by omega), Nat.mod_eq_of_lt (by omega)] at hi'
    omega

/-- The same for the places that count. -/
theorem places_apart_iff (hN : 0 < N) (hpos : 0 < rank N p N) (hm : 0 < m) (hn : 0 < n) :
    (∀ y z, x ≤ y → p (y % N) → rank N p y < rank N p x + m → a ≤ z → p (z % N) →
      rank N p z < rank N p a + n → y % N ≠ z % N) ↔
      m ≤ gap (rank N p N) (rank N p x) (rank N p a) ∧
        n ≤ gap (rank N p N) (rank N p a) (rank N p x) := by
  rw [← steps_apart_iff hpos hm hn]
  constructor
  · intro hapart i hi j hj heq
    obtain ⟨y, hxy, hy, hyrank⟩ := exists_rank hN hpos x i
    obtain ⟨z, haz, hz, hzrank⟩ := exists_rank hN hpos a j
    refine hapart y z hxy hy (by omega) haz hz (by omega) ?_
    rw [mod_eq_iff_rank hN hy hz, hyrank, hzrank, heq]
  · intro hsteps y z hxy hy hyrank haz hz hzrank heq
    have hx := rank_mono (N := N) (p := p) hxy
    have ha := rank_mono (N := N) (p := p) haz
    refine hsteps (rank N p y - rank N p x) (by omega) (rank N p z - rank N p a) (by omega) ?_
    rw [Nat.add_sub_cancel' hx, Nat.add_sub_cancel' ha]
    exact (mod_eq_iff_rank hN hy hz).mp heq

end Pmon.Lib
