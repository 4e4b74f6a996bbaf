import Mathlib.Data.BitVec
import Mathlib.Data.Nat.Bitwise
import Pmon.Lib.Extremes

/-!
# The frequencies of the processor and of the memory

`calculate_cpu_freq` and `calculate_ddr_freq` of `Targets/LS2K/dev/set_cpu_ddr_freq.c` search the
dividers of a clock for the frequency nearest to a request, and the callers read the dividers back
from the fields of the word.  What the local variables hold before is not known.

The search for the memory's clock takes the first frequency as it is.  The one for the processor's
means to do so too, but asks for a divider that it does not go through, so what `tmp_min_freq`
happens to hold decides.

## Key results

- `calculateDdrFreq_right`: the memory's clock is the nearest one.
- `calculateFreq_exact`: the processor's is exactly when the word in `tmp_min_freq` is large enough,
  or the other words are a nearest pair already.
-/

namespace Pmon.Cmds.SetFreq

open Pmon.Lib

/-! ## §1 The searches -/

/-- `min_freq`. -/
def minFreq (freq calFreq : ℕ) : ℕ :=
  if freq ≥ calFreq then freq - calFreq else calFreq - freq

/-- `(i * 100) / (0x1 << j)`. -/
def cpuFreq (i j : ℕ) : ℕ := i * 100 / 1 <<< j

/-- The locals of `calculate_cpu_freq` that keep the choice. -/
structure CpuLocals where
  tmpMinFreq : ℕ
  tmpI : ℕ
  tmpJ : ℕ

/-- The body of the loops. -/
def cpuStep (freq i : ℕ) (s : CpuLocals) (j : ℕ) : CpuLocals :=
  if (i = 7 ∧ j = 0) ∨ minFreq freq (cpuFreq i j) < s.tmpMinFreq then
    ⟨minFreq freq (cpuFreq i j), i, j⟩
  else s

/-- `calculate_cpu_freq`: the locals when the loops are done, and `*state`. -/
def calculateCpuFreq (freq : ℕ) (junk : CpuLocals) (state : BitVec 32) : CpuLocals × BitVec 32 :=
  let s := (List.range' 10 21).foldl
    (fun s i => (List.range' 0 8).foldl (cpuStep freq i) s) junk
  (s, state ||| BitVec.ofNat 32 s.tmpI <<< 1 ||| BitVec.ofNat 32 s.tmpJ <<< 8)

/-- `ctrl0_state &= (~(0x3ff << 1))` of `set_cpu_clk`. -/
def clearDividers (ctrl0 : BitVec 32) : BitVec 32 := ctrl0 &&& ~~~(0x3ff#32 <<< 1)

/-- The frequency that `set_cpu_clk` reads back. -/
def cpuClock (ctrl0 : BitVec 32) : ℕ :=
  ((ctrl0 >>> 1) &&& 0x7f#32).toNat * 100 / 1 <<< ((ctrl0 >>> 8) &&& 0x07#32).toNat

/-- `(100 / k) * 2 * i`. -/
def ddrPll (k i : ℕ) : ℕ := 100 / k * 2 * i

def ddrFreq (k i j : ℕ) : ℕ := ddrPll k i / 1 <<< j

/-- The locals of `calculate_ddr_freq` that keep the choice. -/
structure DdrLocals where
  tmpMinFreq : ℕ
  tmpI : ℕ
  tmpJ : ℕ
  tmpK : ℕ
  count : ℕ

def ddrStep (freq k i : ℕ) (s : DdrLocals) (j : ℕ) : DdrLocals :=
  if ddrFreq k i j < 75 ∨ ddrFreq k i j > 1800 then s
  else if s.count = 0 ∨ minFreq freq (ddrFreq k i j) < s.tmpMinFreq then
    ⟨minFreq freq (ddrFreq k i j), i, j, k, 1⟩
  else s

/-- The loop over the dividers of a multiplier. -/
def ddrLoopJ (freq k : ℕ) (s : DdrLocals) (i : ℕ) : DdrLocals :=
  if ddrPll k i < 600 ∨ ddrPll k i > 1800 then s
  else (List.range' 0 4).foldl (ddrStep freq k i) s

/-- The loop over the multipliers. -/
def ddrLoopI (freq : ℕ) (s : DdrLocals) (k : ℕ) : DdrLocals :=
  if 100 / k < 4 ∨ 100 / k > 75 then s
  else (List.range' 8 218).foldl (ddrLoopJ freq k) s

/-- `calculate_ddr_freq`: the locals when the loops are done, and `*state`. -/
def calculateDdrFreq (freq : ℕ) (junk : DdrLocals) : DdrLocals × BitVec 32 :=
  let s := (List.range' 1 7).foldl (ddrLoopI freq) { junk with count := 0 }
  (s, BitVec.ofNat 32 s.tmpI <<< 24 ||| BitVec.ofNat 32 s.tmpJ <<< 22 |||
    BitVec.ofNat 32 s.tmpK <<< 19)

/-- The frequency that `set_ddr_clk` reads back. -/
def ddrClock (state : BitVec 32) : ℕ :=
  100 / ((state >>> 19) &&& 0x07#32).toNat * 2 * ((state >>> 24) &&& 0xff#32).toNat /
    1 <<< ((state >>> 22) &&& 0x3#32).toNat

/-! ## §2 What is searched -/

/-- The dividers of the processor's clock. -/
structure CpuRange (i j : ℕ) : Prop where
  low : 10 ≤ i
  high : i ≤ 30
  odf : j ≤ 7

/-- The dividers of the memory's clock, with the bounds on the frequencies between. -/
structure DdrRange (k i j : ℕ) : Prop where
  idf : 1 ≤ k ∧ k ≤ 7
  ldf : 8 ≤ i ∧ i ≤ 225
  odf : j ≤ 3
  input : 4 ≤ 100 / k ∧ 100 / k ≤ 75
  pll : 600 ≤ ddrPll k i ∧ ddrPll k i ≤ 1800
  output : 75 ≤ ddrFreq k i j ∧ ddrFreq k i j ≤ 1800

/-- No pair comes nearer to the request. -/
def CpuNearest (freq i j : ℕ) : Prop :=
  ∀ i' j', CpuRange i' j' → minFreq freq (cpuFreq i j) ≤ minFreq freq (cpuFreq i' j')

/-- No dividers come nearer to the request. -/
def DdrNearest (freq k i j : ℕ) : Prop :=
  ∀ k' i' j', DdrRange k' i' j' → minFreq freq (ddrFreq k i j) ≤ minFreq freq (ddrFreq k' i' j')

/-- **What the search is for**: dividers in their ranges, a frequency as near as any, and fields
    that give it back. -/
structure CpuRight (freq : ℕ) (r : CpuLocals × BitVec 32) : Prop where
  range : CpuRange r.1.tmpI r.1.tmpJ
  nearest : CpuNearest freq r.1.tmpI r.1.tmpJ
  clock : cpuClock r.2 = cpuFreq r.1.tmpI r.1.tmpJ

structure DdrRight (freq : ℕ) (r : DdrLocals × BitVec 32) : Prop where
  range : DdrRange r.1.tmpK r.1.tmpI r.1.tmpJ
  nearest : DdrNearest freq r.1.tmpK r.1.tmpI r.1.tmpJ
  clock : ddrClock r.2 = ddrFreq r.1.tmpK r.1.tmpI r.1.tmpJ

/-! ## §3 The fields -/

variable {freq i j k : ℕ}

/-- A number that a field holds. -/
theorem toNat_field {x mask : BitVec 32} {lsb width n : ℕ} (hmask : mask.toNat = 2 ^ width - 1)
    (hn : n < 2 ^ width) (hbits : ∀ b < width, x.getLsbD (lsb + b) = n.testBit b) :
    ((x >>> lsb) &&& mask).toNat = n := by
  rw [BitVec.toNat_and, BitVec.toNat_ushiftRight, hmask, Nat.and_two_pow_sub_one_eq_mod]
  apply Nat.eq_of_testBit_eq
  intro b
  rw [Nat.testBit_mod_two_pow, Nat.testBit_shiftRight]
  by_cases hb : b < width
  · rw [decide_eq_true hb, Bool.true_and]
    exact hbits b hb
  · have hhigh := Nat.testBit_lt_two_pow (Nat.lt_of_lt_of_le hn
      (Nat.pow_le_pow_right (by decide) (Nat.not_lt.mp hb)))
    rw [decide_eq_false hb, Bool.false_and, hhigh]

/-- Where a number stands that has been shifted. -/
theorem getLsbD_shifted (n lsb : ℕ) {b : ℕ} (hb : b < 32) :
    (BitVec.ofNat 32 n <<< lsb).getLsbD b = (decide (lsb ≤ b) && n.testBit (b - lsb)) := by
  rw [BitVec.getLsbD_shiftLeft, BitVec.getLsbD_ofNat, decide_eq_true hb, Bool.true_and]
  by_cases hlsb : lsb ≤ b
  · have hlow : b - lsb < 32 := by omega
    simp [hlsb, hlow]
  · simp [hlsb]

theorem testBit_of_lt {n width b : ℕ} (hn : n < 2 ^ width) (hb : width ≤ b) :
    n.testBit b = false :=
  Nat.testBit_lt_two_pow (Nat.lt_of_lt_of_le hn (Nat.pow_le_pow_right (by decide) hb))

/-- The fields of the processor's dividers are clear. -/
theorem getLsbD_clearDividers (ctrl0 : BitVec 32) {b : ℕ} (hlow : 1 ≤ b) (hhigh : b ≤ 10) :
    (clearDividers ctrl0).getLsbD b = false := by
  have hb : b = 1 ∨ b = 2 ∨ b = 3 ∨ b = 4 ∨ b = 5 ∨ b = 6 ∨ b = 7 ∨ b = 8 ∨ b = 9 ∨ b = 10 := by
    omega
  unfold clearDividers
  rcases hb with rfl | rfl | rfl | rfl | rfl | rfl | rfl | rfl | rfl | rfl
  all_goals simp

/-- The bits of the word that `calculate_cpu_freq` leaves. -/
theorem getLsbD_cpuWord (ctrl0 : BitVec 32) (i j : ℕ) {b : ℕ} (hlow : 1 ≤ b) (hhigh : b ≤ 10) :
    (clearDividers ctrl0 ||| BitVec.ofNat 32 i <<< 1 ||| BitVec.ofNat 32 j <<< 8).getLsbD b =
      (i.testBit (b - 1) || (decide (8 ≤ b) && j.testBit (b - 8))) := by
  rw [BitVec.getLsbD_or, BitVec.getLsbD_or, getLsbD_clearDividers ctrl0 hlow hhigh,
    getLsbD_shifted i 1 (by omega), getLsbD_shifted j 8 (by omega), decide_eq_true hlow,
    Bool.false_or, Bool.true_and]

/-- **The processor's dividers** are read back. -/
theorem cpuClock_fields (h : CpuRange i j) (ctrl0 : BitVec 32) :
    cpuClock (clearDividers ctrl0 ||| BitVec.ofNat 32 i <<< 1 ||| BitVec.ofNat 32 j <<< 8) =
      cpuFreq i j := by
  have hhigh := h.high
  have hodf := h.odf
  have hi : i < 2 ^ 7 := Nat.lt_of_le_of_lt hhigh (by decide)
  have hj : j < 2 ^ 3 := Nat.lt_of_le_of_lt hodf (by decide)
  have hbits := fun b => getLsbD_cpuWord ctrl0 i j (b := b)
  unfold cpuClock cpuFreq
  generalize clearDividers ctrl0 ||| BitVec.ofNat 32 i <<< 1 ||| BitVec.ofNat 32 j <<< 8 = x
    at hbits ⊢
  have hldf : ((x >>> 1) &&& 0x7f#32).toNat = i := by
    apply toNat_field (show (0x7f#32).toNat = 2 ^ 7 - 1 from rfl) hi
    intro b hb
    rw [hbits (1 + b) (by omega) (by omega), decide_eq_false (by omega), Bool.false_and,
      Bool.or_false, Nat.add_sub_cancel_left]
  have hdiv : ((x >>> 8) &&& 0x07#32).toNat = j := by
    apply toNat_field (show (0x07#32).toNat = 2 ^ 3 - 1 from rfl) hj
    intro b hb
    rw [hbits (8 + b) (by omega) (by omega), testBit_of_lt hi (by omega), Bool.false_or,
      decide_eq_true (by omega), Bool.true_and, Nat.add_sub_cancel_left]
  rw [hldf, hdiv]

/-- The bits of the word that `calculate_ddr_freq` leaves. -/
theorem getLsbD_ddrWord (i j k : ℕ) {b : ℕ} (hb : b < 32) :
    (BitVec.ofNat 32 i <<< 24 ||| BitVec.ofNat 32 j <<< 22 ||| BitVec.ofNat 32 k <<< 19).getLsbD b =
      (decide (24 ≤ b) && i.testBit (b - 24) || decide (22 ≤ b) && j.testBit (b - 22) ||
        decide (19 ≤ b) && k.testBit (b - 19)) := by
  rw [BitVec.getLsbD_or, BitVec.getLsbD_or, getLsbD_shifted i 24 hb, getLsbD_shifted j 22 hb,
    getLsbD_shifted k 19 hb]

/-- **The memory's dividers** are read back. -/
theorem ddrClock_fields (h : DdrRange k i j) :
    ddrClock (BitVec.ofNat 32 i <<< 24 ||| BitVec.ofNat 32 j <<< 22 |||
      BitVec.ofNat 32 k <<< 19) = ddrFreq k i j := by
  have hi : i < 2 ^ 8 := Nat.lt_of_le_of_lt h.ldf.2 (by decide)
  have hj : j < 2 ^ 2 := Nat.lt_of_le_of_lt h.odf (by decide)
  have hk : k < 2 ^ 3 := Nat.lt_of_le_of_lt h.idf.2 (by decide)
  have hbits := fun b => getLsbD_ddrWord i j k (b := b)
  unfold ddrClock ddrFreq ddrPll
  generalize BitVec.ofNat 32 i <<< 24 ||| BitVec.ofNat 32 j <<< 22 ||| BitVec.ofNat 32 k <<< 19 = x
    at hbits ⊢
  have hldf : ((x >>> 24) &&& 0xff#32).toNat = i := by
    apply toNat_field (show (0xff#32).toNat = 2 ^ 8 - 1 from rfl) hi
    intro b hb
    rw [hbits (24 + b) (by omega), testBit_of_lt hj (by omega), testBit_of_lt hk (by omega),
      decide_eq_true (by omega)]
    simp
  have hodf : ((x >>> 22) &&& 0x3#32).toNat = j := by
    apply toNat_field (show (0x3#32).toNat = 2 ^ 2 - 1 from rfl) hj
    intro b hb
    rw [hbits (22 + b) (by omega), testBit_of_lt hk (by omega),
      decide_eq_false (by omega : ¬ 24 ≤ 22 + b), decide_eq_true (by omega : 22 ≤ 22 + b)]
    simp
  have hidf : ((x >>> 19) &&& 0x07#32).toNat = k := by
    apply toNat_field (show (0x07#32).toNat = 2 ^ 3 - 1 from rfl) hk
    intro b hb
    rw [hbits (19 + b) (by omega), decide_eq_false (by omega : ¬ 24 ≤ 19 + b),
      decide_eq_false (by omega : ¬ 22 ≤ 19 + b), decide_eq_true (by omega : 19 ≤ 19 + b)]
    simp
  rw [hldf, hodf, hidf]

/-! ## §4 The search for the processor -/

/-- The pairs in the order of the loops. -/
def cpuPairs : List (ℕ × ℕ) :=
  (List.range' 10 21).flatMap fun i => (List.range' 0 8).map fun j => (i, j)

theorem mem_cpuPairs : (i, j) ∈ cpuPairs ↔ CpuRange i j := by
  have hmem : (i, j) ∈ cpuPairs ↔ (10 ≤ i ∧ i < 31) ∧ j < 8 := by
    simp [cpuPairs, List.mem_range'_1]
  rw [hmem]
  constructor
  · rintro ⟨⟨hlow, hhigh⟩, hodf⟩
    exact ⟨hlow, by omega, by omega⟩
  · rintro ⟨hlow, hhigh, hodf⟩
    exact ⟨⟨hlow, by omega⟩, by omega⟩

/-- How far the frequency of a pair is from the request. -/
def cpuMiss (freq : ℕ) (x : ℕ × ℕ) : ℕ := minFreq freq (cpuFreq x.1 x.2)

def CpuLocals.best (s : CpuLocals) : Best (ℕ × ℕ) ℕ := ⟨s.tmpMinFreq, (s.tmpI, s.tmpJ)⟩

theorem CpuLocals.of_best {s : CpuLocals} {b : Best (ℕ × ℕ) ℕ} (h : s.best = b) :
    s.tmpI = b.place.1 ∧ s.tmpJ = b.place.2 := by
  subst h
  exact ⟨rfl, rfl⟩

/-- The loops as one search, in which no divider is 7. -/
theorem best_foldl_cpuStep (freq : ℕ) {l : List (ℕ × ℕ)} (hl : ∀ x ∈ l, x.1 ≠ 7) (s : CpuLocals) :
    (l.foldl (fun s x => cpuStep freq x.1 s x.2) s).best = runBest (cpuMiss freq) s.best l := by
  induction l generalizing s with
  | nil => rfl
  | cons x l ih =>
    obtain ⟨hx, hl⟩ := List.forall_mem_cons.mp hl
    have hstep : (cpuStep freq x.1 s x.2).best = s.best.next (cpuMiss freq) x := by
      unfold cpuStep Best.next
      by_cases hless : minFreq freq (cpuFreq x.1 x.2) < s.tmpMinFreq
      · rw [if_pos (Or.inr hless), if_pos (show cpuMiss freq x < s.best.value from hless)]
        rfl
      · rw [if_neg (fun h => h.elim (fun h => hx h.1) hless),
          if_neg (show ¬ cpuMiss freq x < s.best.value from hless)]
    rw [List.foldl_cons, ih hl, hstep]
    rfl

theorem calculateCpuFreq_best (freq : ℕ) (junk : CpuLocals) (state : BitVec 32) :
    (calculateCpuFreq freq junk state).1.best = runBest (cpuMiss freq) junk.best cpuPairs := by
  rw [← best_foldl_cpuStep freq (fun x hx => by
    have := (mem_cpuPairs.mp hx).low
    omega)]
  unfold calculateCpuFreq cpuPairs
  rw [List.foldl_flatMap]
  simp only [List.foldl_map]

/-- A pair that the search may find is right when it is nearest. -/
theorem cpuRight_iff (junk : CpuLocals) (ctrl0 : BitVec 32) :
    CpuRight freq (calculateCpuFreq freq junk (clearDividers ctrl0)) ↔
      CpuRange (calculateCpuFreq freq junk (clearDividers ctrl0)).1.tmpI
          (calculateCpuFreq freq junk (clearDividers ctrl0)).1.tmpJ ∧
        CpuNearest freq (calculateCpuFreq freq junk (clearDividers ctrl0)).1.tmpI
          (calculateCpuFreq freq junk (clearDividers ctrl0)).1.tmpJ :=
  ⟨fun h => ⟨h.range, h.nearest⟩, fun h => ⟨h.1, h.2, cpuClock_fields h.1 ctrl0⟩⟩

/-- **The processor's clock**: what `tmp_min_freq` holds before must be more than what some pair
    misses the request by; or else the pair that the other locals hold must be right already. -/
theorem calculateCpuFreq_iff (freq : ℕ) (junk : CpuLocals) (ctrl0 : BitVec 32) :
    CpuRight freq (calculateCpuFreq freq junk (clearDividers ctrl0)) ↔
      (∃ i j, CpuRange i j ∧ minFreq freq (cpuFreq i j) < junk.tmpMinFreq) ∨
        CpuRange junk.tmpI junk.tmpJ ∧ CpuNearest freq junk.tmpI junk.tmpJ := by
  have hbest := calculateCpuFreq_best freq junk (clearDividers ctrl0)
  rw [cpuRight_iff]
  generalize (calculateCpuFreq freq junk (clearDividers ctrl0)).1 = s at hbest ⊢
  rcases runBest_cases (cpuMiss freq) junk.best cpuPairs with
    ⟨hstay, hall⟩ | ⟨x, hx, hfound, hlt, hall⟩
  · -- nothing is less: the locals are what they were
    rw [hstay] at hbest
    obtain ⟨hi, hj⟩ := CpuLocals.of_best hbest
    rw [hi, hj]
    refine ⟨Or.inr, fun h => h.resolve_left ?_⟩
    rintro ⟨i, j, hrange, hless⟩
    exact Nat.not_lt.mpr (hall (i, j) (mem_cpuPairs.mpr hrange)) hless
  · obtain ⟨i, j⟩ := x
    rw [hfound] at hbest
    obtain ⟨hi, hj⟩ := CpuLocals.of_best hbest
    rw [hi, hj]
    have hrange := mem_cpuPairs.mp hx
    refine iff_of_true ⟨hrange, fun i' j' h => hall (i', j') (mem_cpuPairs.mpr h)⟩ ?_
    exact Or.inl ⟨i, j, hrange, hlt⟩

/-! ## §5 The search for the memory -/

/-- Which of the loops the dividers get through. -/
def ddrTriples : List (ℕ × ℕ × ℕ) :=
  (List.range' 1 7).flatMap fun k =>
    if 100 / k < 4 ∨ 100 / k > 75 then []
    else (List.range' 8 218).flatMap fun i =>
      if ddrPll k i < 600 ∨ ddrPll k i > 1800 then []
      else (List.range' 0 4).flatMap fun j =>
        if ddrFreq k i j < 75 ∨ ddrFreq k i j > 1800 then [] else [(k, i, j)]

theorem mem_ite_nil {α : Type*} {c : Prop} [Decidable c] {l : List α} {x : α} :
    x ∈ (if c then [] else l) ↔ ¬ c ∧ x ∈ l := by
  by_cases hc : c
  · simp [hc]
  · simp [hc]

theorem mem_ddrTriples : (k, i, j) ∈ ddrTriples ↔ DdrRange k i j := by
  have hmem : (k, i, j) ∈ ddrTriples ↔ (1 ≤ k ∧ k < 8) ∧ ¬ (100 / k < 4 ∨ 100 / k > 75) ∧
      (8 ≤ i ∧ i < 226) ∧ ¬ (ddrPll k i < 600 ∨ ddrPll k i > 1800) ∧
        j < 4 ∧ ¬ (ddrFreq k i j < 75 ∨ ddrFreq k i j > 1800) := by
    unfold ddrTriples
    simp only [List.mem_flatMap, mem_ite_nil, List.mem_range'_1, List.mem_singleton,
      Prod.mk.injEq]
    constructor
    · rintro ⟨k', hk, hin, i', hi, hpll, j', hj, hout, rfl, rfl, rfl⟩
      exact ⟨⟨hk.1, by omega⟩, hin, ⟨hi.1, by omega⟩, hpll, by omega, hout⟩
    · rintro ⟨hk, hin, hi, hpll, hj, hout⟩
      exact ⟨k, ⟨hk.1, by omega⟩, hin, i, ⟨hi.1, by omega⟩, hpll, j, ⟨by omega, by omega⟩, hout,
        rfl, rfl, rfl⟩
  rw [hmem]
  constructor
  · rintro ⟨hk, hin, hi, hpll, hj, hout⟩
    exact ⟨⟨hk.1, by omega⟩, ⟨hi.1, by omega⟩, by omega, by omega, by omega, by omega⟩
  · rintro ⟨hk, hi, hj, hin, hpll, hout⟩
    exact ⟨⟨hk.1, by omega⟩, by omega, ⟨hi.1, by omega⟩, by omega, by omega, by omega⟩

def ddrMiss (freq : ℕ) (x : ℕ × ℕ × ℕ) : ℕ := minFreq freq (ddrFreq x.1 x.2.1 x.2.2)

/-- What becomes of dividers that get through the loops. -/
def ddrTake (freq : ℕ) (s : DdrLocals) (x : ℕ × ℕ × ℕ) : DdrLocals :=
  if s.count = 0 ∨ ddrMiss freq x < s.tmpMinFreq then ⟨ddrMiss freq x, x.2.1, x.2.2, x.1, 1⟩ else s

/-- A loop in which some turns do nothing. -/
theorem foldl_ite_nil {α β : Type*} {c : Prop} [Decidable c] (f : β → α → β) (s : β) (l : List α) :
    (if c then [] else l).foldl f s = if c then s else l.foldl f s := by
  split
  · rfl
  · rfl

/-- **The loops as one search.** -/
theorem foldl_ddrLoopI (freq : ℕ) (s : DdrLocals) :
    (List.range' 1 7).foldl (ddrLoopI freq) s = ddrTriples.foldl (ddrTake freq) s := by
  unfold ddrTriples
  rw [List.foldl_flatMap]
  congr 1
  funext s k
  rw [foldl_ite_nil, List.foldl_flatMap]
  unfold ddrLoopI
  congr 2
  funext s i
  rw [foldl_ite_nil, List.foldl_flatMap]
  unfold ddrLoopJ
  congr 2
  funext s j
  rw [foldl_ite_nil]
  rfl

def DdrLocals.best (s : DdrLocals) : Best (ℕ × ℕ × ℕ) ℕ :=
  ⟨s.tmpMinFreq, (s.tmpK, s.tmpI, s.tmpJ)⟩

/-- Once there is a choice, the search goes on from it. -/
theorem best_foldl_ddrTake (freq : ℕ) (l : List (ℕ × ℕ × ℕ)) (s : DdrLocals) (h : s.count = 1) :
    (l.foldl (ddrTake freq) s).best = runBest (ddrMiss freq) s.best l := by
  induction l generalizing s with
  | nil => rfl
  | cons x l ih =>
    rw [List.foldl_cons]
    have hcount : s.count ≠ 0 := by omega
    by_cases hless : ddrMiss freq x < s.tmpMinFreq
    · have hstep : ddrTake freq s x = ⟨ddrMiss freq x, x.2.1, x.2.2, x.1, 1⟩ :=
        if_pos (Or.inr hless)
      have hnext : s.best.next (ddrMiss freq) x = ⟨ddrMiss freq x, x⟩ := if_pos hless
      rw [hstep, ih _ rfl]
      change _ = runBest (ddrMiss freq) (s.best.next (ddrMiss freq) x) l
      rw [hnext]
      rfl
    · have hstep : ddrTake freq s x = s := if_neg fun h => h.elim hcount hless
      have hnext : s.best.next (ddrMiss freq) x = s.best := if_neg hless
      rw [hstep, ih s h]
      change _ = runBest (ddrMiss freq) (s.best.next (ddrMiss freq) x) l
      rw [hnext]

/-- **The memory's clock** is right for every request, whatever the locals hold before. -/
theorem calculateDdrFreq_right (freq : ℕ) (junk : DdrLocals) :
    DdrRight freq (calculateDdrFreq freq junk) := by
  have hfirst : (2, 8, 0) ∈ ddrTriples := mem_ddrTriples.mpr
    ⟨by decide, by decide, by decide, by decide, by decide, by decide⟩
  obtain ⟨x, l, hl⟩ := List.exists_cons_of_ne_nil (List.ne_nil_of_mem hfirst)
  have hbest : (calculateDdrFreq freq junk).1.best =
      runBest (ddrMiss freq) ⟨ddrMiss freq x, x⟩ l := by
    -- the first dividers are taken as they are, since `count` is 0
    have htake : ddrTake freq { junk with count := 0 } x = ⟨ddrMiss freq x, x.2.1, x.2.2, x.1, 1⟩ :=
      if_pos (Or.inl rfl)
    unfold calculateDdrFreq
    dsimp only
    rw [foldl_ddrLoopI, hl, List.foldl_cons, htake, best_foldl_ddrTake freq l _ rfl]
    rfl
  obtain ⟨⟨k, i, j⟩, hmem, hfound, hall⟩ :=
    runBest_least (g := ddrMiss freq) (x := x) (l := l)
  rw [← hl] at hmem hall
  rw [hfound] at hbest
  have hword : (calculateDdrFreq freq junk).2 =
      BitVec.ofNat 32 (calculateDdrFreq freq junk).1.tmpI <<< 24 |||
        BitVec.ofNat 32 (calculateDdrFreq freq junk).1.tmpJ <<< 22 |||
        BitVec.ofNat 32 (calculateDdrFreq freq junk).1.tmpK <<< 19 := rfl
  have hplace : (calculateDdrFreq freq junk).1.best.place = (k, i, j) := by rw [hbest]
  obtain ⟨hk, hij⟩ := Prod.mk.inj hplace
  obtain ⟨hi, hj⟩ := Prod.mk.inj hij
  have hrange := mem_ddrTriples.mp hmem
  refine ⟨?_, ?_, ?_⟩
  · rw [hk, hi, hj]
    exact hrange
  · rw [hk, hi, hj]
    exact fun k' i' j' h => hall (k', i', j') (mem_ddrTriples.mpr h)
  · rw [hword, hk, hi, hj]
    exact ddrClock_fields hrange

/-- **Both searches**: the one for the memory is right for every request, whatever the locals hold
    before; the one for the processor exactly when the word in `tmp_min_freq` lets it begin, or its
    other locals hold a nearest pair. -/
theorem calculateFreq_exact (freq : ℕ) (cpuJunk : CpuLocals) (ddrJunk : DdrLocals)
    (ctrl0 : BitVec 32) :
    (CpuRight freq (calculateCpuFreq freq cpuJunk (clearDividers ctrl0)) ∧
        DdrRight freq (calculateDdrFreq freq ddrJunk)) ↔
      (∃ i j, CpuRange i j ∧ minFreq freq (cpuFreq i j) < cpuJunk.tmpMinFreq) ∨
        CpuRange cpuJunk.tmpI cpuJunk.tmpJ ∧ CpuNearest freq cpuJunk.tmpI cpuJunk.tmpJ := by
  rw [and_iff_left (calculateDdrFreq_right freq ddrJunk)]
  exact calculateCpuFreq_iff freq cpuJunk ctrl0

/-- **A zero in `tmp_min_freq`**: 1000 MHz can be had, and no divider is chosen. -/
theorem calculateCpuFreq_zero :
    cpuFreq 10 0 = 1000 ∧
      ¬ CpuRight 1000 (calculateCpuFreq 1000 ⟨0, 0, 0⟩ (clearDividers 0#32)) := by
  refine ⟨rfl, fun h => ?_⟩
  rcases (calculateCpuFreq_iff 1000 ⟨0, 0, 0⟩ 0#32).mp h with ⟨i, j, -, hless⟩ | ⟨hrange, -⟩
  · exact absurd hless (Nat.not_lt_zero _)
  · exact absurd hrange.low (by decide)

end Pmon.Cmds.SetFreq
