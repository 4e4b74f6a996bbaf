import Mathlib.Data.List.Basic
import Mathlib.Tactic.Common

/-!
# Reading by pieces

A stretch `[pos, stop)` is read piece by piece, where a piece ends at the next cut, or at the end of
the stretch.  Each piece may fail.

- `deliver_split`: a stretch is read up to a cut, and then from there.
- `deliver_eq_iff`: the whole is right exactly when each piece is.
- `pieceOf_blockCuts`: the pieces where the cuts are the bounds of blocks.
-/

namespace Pmon.Lib

/-- Where pieces end: `next p` is the first cut behind `p`. -/
structure Cuts where
  next : ℕ → ℕ
  lt_next : ∀ p, p < next p

variable {α : Type*} {c : Cuts} {get get' : ℕ → ℕ → Option (List α)} {b p p' pos stop : ℕ}

/-- What is read from `pos` up to `stop`; `get p p'` reads a piece from `p` up to `p'`. -/
def deliver (c : Cuts) (get : ℕ → ℕ → Option (List α)) (stop pos : ℕ) : Option (List α) :=
  if pos < stop then
    (get pos (min stop (c.next pos))).bind fun x =>
      (deliver c get stop (min stop (c.next pos))).map (x ++ ·)
  else some []
termination_by stop - pos
decreasing_by
  have hnext := c.lt_next pos
  omega

theorem deliver_of_le (h : stop ≤ pos) : deliver c get stop pos = some [] := by
  rw [deliver, if_neg (by omega)]

theorem deliver_of_lt (h : pos < stop) (hp : min stop (c.next pos) = p) :
    deliver c get stop pos =
      (get pos p).bind fun x => (deliver c get stop p).map (x ++ ·) := by
  rw [deliver, if_pos h, hp]

/-- No piece goes across the place. -/
def Cuts.IsCut (c : Cuts) (b : ℕ) : Prop := ∀ p < b, c.next p ≤ b

/-- **Stopping at a cut** on the way makes no difference. -/
theorem deliver_split (hb : c.IsCut b) (hstop : b ≤ stop) (hpos : pos ≤ b) :
    deliver c get stop pos =
      (deliver c get b pos).bind fun x => (deliver c get stop b).map (x ++ ·) := by
  induction hn : b - pos using Nat.strongRecOn generalizing pos with
  | ind n ih =>
    rcases Nat.eq_or_lt_of_le hpos with rfl | hlt
    · rw [deliver_of_le (Nat.le_refl pos)]
      simp
    · have hnext := c.lt_next pos
      have hcut := hb pos hlt
      rw [deliver_of_lt (by omega) (Nat.min_eq_right (by omega)),
        deliver_of_lt hlt (Nat.min_eq_right hcut),
        ih (b - c.next pos) (by omega) hcut rfl]
      cases get pos (c.next pos) with
      | none => rfl
      | some x =>
        cases deliver c get b (c.next pos) with
        | none => rfl
        | some y => cases deliver c get stop b <;> simp

/-! ## The pieces of a stretch -/

/-- The pieces of the stretch from `pos` up to `stop`. -/
inductive PieceOf (c : Cuts) (stop : ℕ) : ℕ → ℕ → ℕ → Prop where
  | head {pos : ℕ} : pos < stop → PieceOf c stop pos pos (min stop (c.next pos))
  | tail {pos p p' : ℕ} : pos < stop → PieceOf c stop (min stop (c.next pos)) p p' →
      PieceOf c stop pos p p'

theorem forall_pieceOf_iff {P : ℕ → ℕ → Prop} (h : pos < stop) :
    (∀ p p', PieceOf c stop pos p p' → P p p') ↔
      P pos (min stop (c.next pos)) ∧
        ∀ p p', PieceOf c stop (min stop (c.next pos)) p p' → P p p' := by
  constructor
  · intro hall
    exact ⟨hall _ _ (.head h), fun p p' hp => hall p p' (.tail h hp)⟩
  · rintro ⟨hhead, htail⟩ p p' hp
    cases hp with
    | head => exact hhead
    | tail _ hp => exact htail p p' hp

theorem not_pieceOf_of_le (h : stop ≤ pos) : ¬ PieceOf c stop pos p p' := by
  intro hp
  cases hp <;> omega

theorem deliver_congr (h : ∀ p p', PieceOf c stop pos p p' → get p p' = get' p p') :
    deliver c get stop pos = deliver c get' stop pos := by
  induction hn : stop - pos using Nat.strongRecOn generalizing pos with
  | ind n ih =>
    by_cases hlt : pos < stop
    · have hnext := c.lt_next pos
      rw [forall_pieceOf_iff hlt] at h
      rw [deliver_of_lt hlt rfl, deliver_of_lt hlt rfl, h.1, ih _ (by omega) h.2 rfl]
    · rw [deliver_of_le (by omega), deliver_of_le (by omega)]

theorem length_deliver (hget : ∀ p p' x, get p p' = some x → x.length = p' - p) {x : List α}
    (h : deliver c get stop pos = some x) : x.length = stop - pos := by
  induction hn : stop - pos using Nat.strongRecOn generalizing pos x with
  | ind n ih =>
    by_cases hlt : pos < stop
    · have hnext := c.lt_next pos
      rw [deliver_of_lt hlt rfl] at h
      obtain ⟨y, hy, hrest⟩ := Option.bind_eq_some_iff.mp h
      obtain ⟨z, hz, rfl⟩ := Option.map_eq_some_iff.mp hrest
      rw [List.length_append, hget _ _ _ hy, ih _ (by omega) hz rfl]
      omega
    · rw [deliver_of_le (by omega), Option.some.injEq] at h
      rw [← h, List.length_nil]
      omega

/-- **Piece by piece**: the whole is right exactly when each piece is. -/
theorem deliver_eq_iff (hget : ∀ p p' x, get p p' = some x → x.length = p' - p) (f : ℕ → α) :
    deliver c get stop pos = some ((List.range' pos (stop - pos)).map f) ↔
      ∀ p p', PieceOf c stop pos p p' → get p p' = some ((List.range' p (p' - p)).map f) := by
  induction hn : stop - pos using Nat.strongRecOn generalizing pos with
  | ind n ih =>
    by_cases hlt : pos < stop
    · have hnext := c.lt_next pos
      -- the bytes of the head and those behind it
      have hsplit : (List.range' pos (stop - pos)).map f =
          (List.range' pos (min stop (c.next pos) - pos)).map f ++
            (List.range' (min stop (c.next pos)) (stop - min stop (c.next pos))).map f := by
        rw [← List.map_append]
        congr 1
        rw [show min stop (c.next pos) = pos + (min stop (c.next pos) - pos) by omega,
          Nat.add_sub_cancel_left, List.range'_append_1]
        congr 1
        omega
      rw [forall_pieceOf_iff hlt, ← ih _ (by omega) rfl, deliver_of_lt hlt rfl, ← hn, hsplit,
        Option.bind_eq_some_iff]
      constructor
      · rintro ⟨y, hy, hrest⟩
        obtain ⟨z, hz, hboth⟩ := Option.map_eq_some_iff.mp hrest
        have hlen : y.length = min stop (c.next pos) - pos := hget _ _ _ hy
        obtain ⟨rfl, rfl⟩ := List.append_inj hboth (by
          rw [hlen, List.length_map, List.length_range'])
        exact ⟨hy, hz⟩
      · rintro ⟨hhead, htail⟩
        exact ⟨_, hhead, by rw [htail]; rfl⟩
    · have hzero : stop - pos = 0 := by omega
      apply iff_of_true
      · rw [deliver_of_le (by omega), ← hn, hzero]
        rfl
      · intro p p' hp
        exact absurd hp (not_pieceOf_of_le (by omega))

/-! ## Blocks -/

/-- The bounds of blocks. -/
def blockCuts (bs : ℕ) (h : 0 < bs) : Cuts where
  next p := (p / bs + 1) * bs
  lt_next p := by
    rw [← Nat.div_lt_iff_lt_mul h]
    exact Nat.lt_succ_self _

variable {bs q : ℕ} {hbs : 0 < bs}

theorem blockCuts_next (p : ℕ) : (blockCuts bs hbs).next p = (p / bs + 1) * bs := rfl

theorem isCut_mul (q : ℕ) : (blockCuts bs hbs).IsCut (q * bs) := by
  intro p hp
  apply Nat.mul_le_mul_right
  exact (Nat.div_lt_iff_lt_mul hbs).mpr hp

/-- **The pieces of a stretch** are its parts in the blocks that it touches. -/
theorem pieceOf_blockCuts : PieceOf (blockCuts bs hbs) stop pos p p' ↔
    ∃ q, pos / bs ≤ q ∧ p = max pos (q * bs) ∧ p' = min stop ((q + 1) * bs) ∧ p < stop := by
  constructor
  · intro h
    induction h with
    | @head pos hlt =>
      have hdiv := Nat.div_mul_le_self pos bs
      exact ⟨pos / bs, Nat.le_refl _, (Nat.max_eq_left hdiv).symm, rfl, hlt⟩
    | @tail pos p p' hlt _ ih =>
      obtain ⟨q, hq, rfl, rfl, hstop⟩ := ih
      -- what is left starts at the next block
      have hnext : min stop ((blockCuts bs hbs).next pos) = (pos / bs + 1) * bs := by
        rw [blockCuts_next] at hstop ⊢
        omega
      rw [hnext, Nat.mul_div_cancel _ hbs] at hq
      have hmul : (pos / bs + 1) * bs ≤ q * bs := Nat.mul_le_mul_right _ hq
      have hpos := (blockCuts bs hbs).lt_next pos
      refine ⟨q, by omega, ?_, rfl, hstop⟩
      rw [hnext]
      rw [blockCuts_next] at hpos
      omega
  · rintro ⟨q, hq, rfl, rfl, hstop⟩
    induction hn : q - pos / bs generalizing pos with
    | zero =>
      obtain rfl : q = pos / bs := by omega
      have hdiv := Nat.div_mul_le_self pos bs
      rw [Nat.max_eq_left hdiv] at hstop ⊢
      exact .head hstop
    | succ n ih =>
      have hmul : (pos / bs + 1) * bs ≤ q * bs := Nat.mul_le_mul_right _ (by omega)
      have hpos := (blockCuts bs hbs).lt_next pos
      have hnext : min stop ((blockCuts bs hbs).next pos) = (pos / bs + 1) * bs := by
        rw [blockCuts_next]
        omega
      rw [blockCuts_next] at hpos
      refine .tail (by omega) ?_
      rw [hnext]
      have hmax : max pos (q * bs) = max ((pos / bs + 1) * bs) (q * bs) := by omega
      rw [hmax] at hstop ⊢
      exact ih (by rw [Nat.mul_div_cancel _ hbs]; omega) hstop
        (by rw [Nat.mul_div_cancel _ hbs]; omega)

end Pmon.Lib
