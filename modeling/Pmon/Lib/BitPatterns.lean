import Mathlib.Data.BitVec
import Mathlib.Tactic.Common

/-!
# Bit patterns

Tables in which a word is looked up by a mask and a code, the first row that matches being taken.
Two patterns clash if they ask for different values of a bit; a pattern implies another one if it
asks for all that the other one does.  Which rows a word of a pattern may be taken for is then a
matter of comparing patterns.

## Key results

- `matches_field`: a field of a word as a pattern.
- `lookup_mem_candidates`: the row that a word is taken for, among those its pattern leaves.
-/

namespace Pmon.Lib

/-! ## §1 Patterns -/

/-- A word matches if it has the code under the mask. -/
structure BitPattern (w : ℕ) where
  mask : BitVec w
  code : BitVec w
  deriving DecidableEq

namespace BitPattern

variable {w : ℕ} {p q : BitPattern w} {x : BitVec w}

def Matches (p : BitPattern w) (x : BitVec w) : Prop := x &&& p.mask = p.code

instance (p : BitPattern w) (x : BitVec w) : Decidable (p.Matches x) :=
  inferInstanceAs (Decidable (_ = _))

/-- No word matches both. -/
def Clash (p q : BitPattern w) : Prop := p.code &&& q.mask ≠ q.code &&& p.mask

instance (p q : BitPattern w) : Decidable (p.Clash q) := inferInstanceAs (Decidable (_ ≠ _))

theorem not_clash (hp : p.Matches x) (hq : q.Matches x) : ¬ p.Clash q := by
  intro hclash
  apply hclash
  rw [← hp, ← hq, BitVec.and_assoc, BitVec.and_assoc, BitVec.and_comm p.mask]

/-- Every word that matches `p` matches `q`. -/
def Implies (p q : BitPattern w) : Prop := p.mask &&& q.mask = q.mask ∧ p.code &&& q.mask = q.code

instance (p q : BitPattern w) : Decidable (p.Implies q) := inferInstanceAs (Decidable (_ ∧ _))

theorem Implies.matches (h : p.Implies q) (hp : p.Matches x) : q.Matches x := by
  obtain ⟨hmask, hcode⟩ := h
  unfold Matches
  rw [← hcode, ← hp, BitVec.and_assoc, hmask]

/-- Both patterns. -/
def and (p q : BitPattern w) : BitPattern w := ⟨p.mask ||| q.mask, p.code ||| q.code⟩

theorem Matches.and (hp : p.Matches x) (hq : q.Matches x) : (p.and q).Matches x := by
  unfold Matches BitPattern.and
  dsimp only
  rw [← hp, ← hq]
  apply BitVec.eq_of_getLsbD_eq
  intro i hi
  simp only [BitVec.getLsbD_and, BitVec.getLsbD_or]
  cases x.getLsbD i <;> simp

/-- A field of `n` bits from bit `lsb` on. -/
def field (lsb n : ℕ) (v : BitVec n) : BitPattern w :=
  ⟨(BitVec.allOnes n).setWidth w <<< lsb, v.setWidth w <<< lsb⟩

/-- **A field as a pattern.** -/
theorem matches_field {lsb n : ℕ} {v : BitVec n} (h : lsb + n ≤ w) :
    (field lsb n v).Matches x ↔ x.extractLsb' lsb n = v := by
  unfold Matches field
  dsimp only
  constructor
  · intro heq
    apply BitVec.eq_of_getLsbD_eq
    intro i hi
    have hbit := congrArg (fun y => BitVec.getLsbD y (lsb + i)) heq
    simp only [BitVec.getLsbD_and, BitVec.getLsbD_shiftLeft, BitVec.getLsbD_setWidth,
      BitVec.getLsbD_allOnes, Nat.add_sub_cancel_left] at hbit
    rw [BitVec.getLsbD_extractLsb']
    simpa [hi, show lsb + i < w by omega, show i < w by omega, show ¬ lsb + i < lsb by omega]
      using hbit
  · rintro rfl
    apply BitVec.eq_of_getLsbD_eq
    intro i hi
    simp only [BitVec.getLsbD_and, BitVec.getLsbD_shiftLeft, BitVec.getLsbD_setWidth,
      BitVec.getLsbD_allOnes, BitVec.getLsbD_extractLsb']
    by_cases hlo : i < lsb
    · simp [hlo]
    · rw [show lsb + (i - lsb) = i by omega]
      by_cases hfield : i - lsb < n
      · simp [hlo, hfield, hi, show i - lsb < w by omega]
      · simp [hlo, hfield]

end BitPattern

/-! ## §2 Tables -/

variable {w : ℕ} {τ : Type*} {p : BitPattern w} {x : BitVec w} {t : τ}

/-- The row of the first pattern that matches. -/
def lookup (table : List (BitPattern w × τ)) (x : BitVec w) : Option τ :=
  (table.find? fun row => row.1.Matches x).map Prod.snd

/-- The rows that a word of pattern `p` may be taken for: those that do not clash with it, up to
    the first one that it implies. -/
def candidates (p : BitPattern w) : List (BitPattern w × τ) → List (BitPattern w × τ)
  | [] => []
  | row :: table =>
    if p.Implies row.1 then [row]
    else if p.Clash row.1 then candidates p table
    else row :: candidates p table

/-- **The row that a word of a pattern is taken for** is one of these. -/
theorem lookup_mem_candidates {table : List (BitPattern w × τ)} (hp : p.Matches x)
    (h : lookup table x = some t) : ∃ q, (q, t) ∈ candidates p table ∧ q.Matches x := by
  induction table with
  | nil => cases h
  | cons row table ih =>
    unfold lookup at h
    rw [List.find?_cons] at h
    by_cases hrow : row.1.Matches x
    · simp only [hrow, decide_true] at h
      cases h
      refine ⟨row.1, ?_, hrow⟩
      rw [candidates]
      split
      · exact List.mem_singleton.mpr rfl
      · rw [if_neg (BitPattern.not_clash hp hrow)]
        exact List.mem_cons_self
    · simp only [hrow, decide_false] at h
      obtain ⟨q, hq, hmatches⟩ := ih h
      refine ⟨q, ?_, hmatches⟩
      rw [candidates, if_neg fun himplies => hrow (himplies.matches hp)]
      split
      · exact hq
      · exact List.mem_cons_of_mem _ hq

/-- The row is one of the table, with a pattern that the word matches. -/
theorem lookup_mem {table : List (BitPattern w × τ)} (h : lookup table x = some t) :
    ∃ q, (q, t) ∈ table ∧ q.Matches x := by
  obtain ⟨⟨q, t'⟩, hfound, rfl⟩ := Option.map_eq_some_iff.mp h
  exact ⟨q, List.mem_of_find?_eq_some hfound, by simpa using List.find?_some hfound⟩

end Pmon.Lib
