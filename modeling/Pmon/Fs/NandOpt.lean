import Pmon.Lib.Rounds
import Mathlib.Data.Nat.Notation
import Mathlib.Logic.Function.Basic

/-!
# NAND flash with bad blocks

`get_addr_jump_badblocks`, `nandwrite_set_badblock` and `nandread_check_badblock` of
`Targets/LS2K/dev/nand_opt.c`.  A call gets an address that is a multiple of `BLOCK_SIZE`; addresses
are given by the number of their block.

`block_erase` fails exactly on the bad blocks, each time it is tried, and leaves a good block with
`0xff` everywhere.  A call begins at its block plus the number of marked blocks in front of it, and
goes on behind each block that it finds bad.

## Key results

- `WroteFrom.nandWriteLoop`: what a write does to every block.
- `nandReadLoop_eq`: when a read gets what was written.
-/

namespace Pmon.Fs

open Pmon.Lib

/-! ## §1 Source -/

/-- `BLOCK_SIZE`. -/
def nandBlockSize : ℕ := 0x20000

/-- The number of blocks in 32 bits of addresses. -/
def nandBlocks : ℕ := 0x8000

/-- The bytes of each block, and whether the first byte of its spare area is not `0xff`. -/
structure Nand where
  data : ℕ → ℕ → UInt8
  marked : ℕ → Bool

/-- `nandwrite_spare` with a zero in front. -/
def Nand.mark (nand : Nand) (block : ℕ) : Nand :=
  { nand with marked := Function.update nand.marked block true }

/-- `block_erase` of a good block, its spare area too, and `nandwrite`. -/
def Nand.program (nand : Nand) (block : ℕ) (src : List UInt8) : Nand where
  data := Function.update nand.data block fun i => src.getD i 0xff
  marked := Function.update nand.marked block false

/-- `cur_nand_addr += BLOCK_SIZE`. -/
def nextBlock (block : ℕ) : ℕ := (block + 1) % nandBlocks

/-- `badblock_count` in front of a block. -/
def badblockCount (marked : ℕ → Bool) : ℕ → ℕ
  | 0 => 0
  | block + 1 => badblockCount marked block + if marked block then 1 else 0

/-- `get_addr_jump_badblocks`. -/
def getAddrJumpBadblocks (marked : ℕ → Bool) (block : ℕ) : ℕ :=
  (block + badblockCount marked block) % nandBlocks

/-- What a write leaves, the blocks that it has erased or programmed, and those among them that hold
    some of its data. -/
structure NandWritten where
  nand : Nand
  touched : List ℕ
  held : List ℕ

/-- The loop of `nandwrite_set_badblock`; `fuel` bounds its turns.  `block_offset` is zero, so a
    whole block is written or what is left. -/
def nandWriteLoop (bad : ℕ → Bool) : ℕ → ℕ → List UInt8 → Nand → Option NandWritten
  | 0, _, _, _ => none
  | fuel + 1, cur, src, nand =>
    if bad cur then
      -- `block_erase` has failed five times
      (nandWriteLoop bad fuel (nextBlock cur) src (nand.mark cur)).map fun r =>
        { r with touched := cur :: r.touched }
    else if src.length ≤ nandBlockSize then
      some ⟨nand.program cur src, [cur], if src = [] then [] else [cur]⟩
    else
      (nandWriteLoop bad fuel (nextBlock cur) (src.drop nandBlockSize)
        (nand.program cur (src.take nandBlockSize))).map fun r =>
          { r with touched := cur :: r.touched, held := cur :: r.held }

/-- Turns enough for `count` bytes, when there is a block to write or to read. -/
def nandFuel (count : ℕ) : ℕ := nandBlocks * (count + 1)

/-- `nandwrite_set_badblock`, `none` when it does not return. -/
def nandwriteSetBadblock (bad : ℕ → Bool) (nand : Nand) (block : ℕ) (src : List UInt8) :
    Option NandWritten :=
  nandWriteLoop bad (nandFuel src.length) (getAddrJumpBadblocks nand.marked block) src nand

/-- The loop of `nandread_check_badblock`. -/
def nandReadLoop (nand : Nand) : ℕ → ℕ → ℕ → Option (List UInt8)
  | 0, _, _ => none
  | fuel + 1, cur, count =>
    if nand.marked cur then nandReadLoop nand fuel (nextBlock cur) count
    else if count ≤ nandBlockSize then some ((List.range count).map (nand.data cur))
    else
      (nandReadLoop nand fuel (nextBlock cur) (count - nandBlockSize)).map
        ((List.range nandBlockSize).map (nand.data cur) ++ ·)

/-- `nandread_check_badblock`, `none` when it does not return. -/
def nandreadCheckBadblock (nand : Nand) (block count : ℕ) : Option (List UInt8) :=
  nandReadLoop nand (nandFuel count) (getAddrJumpBadblocks nand.marked block) count

/-! ## §2 The blocks of a call -/

/-- The turns with data, at least one. -/
def chunkCount (count : ℕ) : ℕ := (count - 1) / nandBlockSize + 1

/-- The number of good blocks in front of a place, around the address space. -/
def goodRank (bad : ℕ → Bool) (y : ℕ) : ℕ := rank nandBlocks (fun b => bad b = false) y

/-- `y` is a place of a call that starts at `x` with `count` bytes. -/
def InWalk (bad : ℕ → Bool) (x count y : ℕ) : Prop :=
  x ≤ y ∧ goodRank bad y < goodRank bad x + chunkCount count

/-- What a write from `x` on has done. -/
structure WroteFrom (bad : ℕ → Bool) (x : ℕ) (src : List UInt8) (nand : Nand)
    (r : NandWritten) : Prop where
  touched : ∀ b, b ∈ r.touched ↔ ∃ y, InWalk bad x src.length y ∧ y % nandBlocks = b
  held : ∀ b, b ∈ r.held ↔
    src ≠ [] ∧ ∃ y, InWalk bad x src.length y ∧ bad (y % nandBlocks) = false ∧ y % nandBlocks = b
  marked : ∀ b, r.nand.marked b = if b ∈ r.touched then bad b else nand.marked b
  other : ∀ b, b ∉ r.touched ∨ bad b = true → r.nand.data b = nand.data b
  /-- When no block is written twice. -/
  data : chunkCount src.length ≤ goodRank bad nandBlocks → ∀ y, InWalk bad x src.length y →
    bad (y % nandBlocks) = false → ∀ i < nandBlockSize,
      r.nand.data (y % nandBlocks) i =
        src.getD (nandBlockSize * (goodRank bad y - goodRank bad x) + i) 0xff

variable {bad : ℕ → Bool} {x y count fuel : ℕ} {src : List UInt8} {nand : Nand} {r : NandWritten}

theorem nextBlock_mod : nextBlock (x % nandBlocks) = (x + 1) % nandBlocks := Nat.mod_add_mod _ _ _

theorem chunkCount_pos (count : ℕ) : 0 < chunkCount count := Nat.succ_pos _

theorem chunkCount_of_le (hle : count ≤ nandBlockSize) : chunkCount count = 1 := by
  unfold chunkCount nandBlockSize at *
  omega

theorem chunkCount_of_gt (hgt : nandBlockSize < count) :
    chunkCount count = chunkCount (count - nandBlockSize) + 1 := by
  unfold chunkCount nandBlockSize at *
  omega

theorem goodRank_succ_of_bad (hbad : bad (y % nandBlocks) = true) :
    goodRank bad (y + 1) = goodRank bad y := by
  apply rank_succ_of_neg
  simp [hbad]

theorem goodRank_succ_of_good (hgood : bad (y % nandBlocks) = false) :
    goodRank bad (y + 1) = goodRank bad y + 1 := rank_succ_of_pos hgood

theorem goodRank_mono (hle : x ≤ y) : goodRank bad x ≤ goodRank bad y := rank_mono hle

/-- A bad block is walked over. -/
theorem inWalk_of_bad (hbad : bad (x % nandBlocks) = true) :
    InWalk bad x count y ↔ y = x ∨ InWalk bad (x + 1) count y := by
  have hpos := chunkCount_pos count
  unfold InWalk
  rw [goodRank_succ_of_bad hbad]
  constructor
  · rintro ⟨hle, hrank⟩
    rcases Nat.eq_or_lt_of_le hle with heq | hlt
    · exact Or.inl heq.symm
    · exact Or.inr ⟨hlt, hrank⟩
  · rintro (rfl | ⟨hlt, hrank⟩)
    · exact ⟨Nat.le_refl _, by omega⟩
    · exact ⟨by omega, hrank⟩

/-- The last block. -/
theorem inWalk_of_last (hgood : bad (x % nandBlocks) = false) (hle : count ≤ nandBlockSize) :
    InWalk bad x count y ↔ y = x := by
  unfold InWalk
  rw [chunkCount_of_le hle]
  constructor
  · rintro ⟨hxy, hrank⟩
    by_contra hne
    have hmono : goodRank bad (x + 1) ≤ goodRank bad y := goodRank_mono (by omega)
    rw [goodRank_succ_of_good hgood] at hmono
    omega
  · rintro rfl
    exact ⟨Nat.le_refl _, by omega⟩

/-- A good block, and the rest of the data. -/
theorem inWalk_of_good (hgood : bad (x % nandBlocks) = false) (hgt : nandBlockSize < count) :
    InWalk bad x count y ↔ y = x ∨ InWalk bad (x + 1) (count - nandBlockSize) y := by
  unfold InWalk
  rw [chunkCount_of_gt hgt, goodRank_succ_of_good hgood]
  constructor
  · rintro ⟨hle, hrank⟩
    rcases Nat.eq_or_lt_of_le hle with heq | hlt
    · exact Or.inl heq.symm
    · exact Or.inr ⟨hlt, by omega⟩
  · rintro (rfl | ⟨hlt, hrank⟩)
    · exact ⟨Nat.le_refl _, by omega⟩
    · exact ⟨by omega, by omega⟩

/-! ## §3 The turns of a write -/

theorem WroteFrom.bad_turn (hbad : bad (x % nandBlocks) = true)
    (h : WroteFrom bad (x + 1) src (nand.mark (x % nandBlocks)) r) :
    WroteFrom bad x src nand { r with touched := x % nandBlocks :: r.touched } where
  touched b := by
    simp only [List.mem_cons, h.touched, inWalk_of_bad hbad, or_and_right, exists_or,
      exists_eq_left, eq_comm (a := b)]
  held b := by
    rw [h.held]
    apply and_congr_right
    intro _
    constructor
    · rintro ⟨y, hy, hgood, heq⟩
      exact ⟨y, (inWalk_of_bad hbad).mpr (Or.inr hy), hgood, heq⟩
    · rintro ⟨y, hy, hgood, heq⟩
      rcases (inWalk_of_bad hbad).mp hy with rfl | hy
      · simp [hbad] at hgood
      · exact ⟨y, hy, hgood, heq⟩
  marked b := by
    rw [h.marked]
    by_cases hb : b = x % nandBlocks
    · -- a block that is met again later is bad all the same
      simp [hb, Nand.mark, hbad]
    · simp [hb, Nand.mark]
  other b hb := by
    apply h.other b
    rcases hb with hb | hb
    · exact Or.inl fun hmem => hb (List.mem_cons_of_mem _ hmem)
    · exact Or.inr hb
  data hfew y hy hgood i hi := by
    rcases (inWalk_of_bad hbad).mp hy with rfl | hy
    · simp [hbad] at hgood
    · rw [← goodRank_succ_of_bad hbad]
      exact h.data hfew y hy hgood i hi

theorem WroteFrom.last_turn (hgood : bad (x % nandBlocks) = false)
    (hle : src.length ≤ nandBlockSize) :
    WroteFrom bad x src nand
      ⟨nand.program (x % nandBlocks) src, [x % nandBlocks],
        if src = [] then [] else [x % nandBlocks]⟩ where
  touched b := by simp [inWalk_of_last hgood hle, eq_comm]
  held b := by
    by_cases hsrc : src = []
    · simp [hsrc]
    · rw [if_neg hsrc, List.mem_singleton, eq_comm]
      simp only [inWalk_of_last hgood hle, exists_eq_left, hgood, hsrc, ne_eq, not_false_eq_true,
        true_and]
  marked b := by
    by_cases hb : b = x % nandBlocks
    · simp [hb, Nand.program, hgood]
    · simp [hb, Nand.program]
  other b hb := by
    apply Function.update_of_ne
    rintro rfl
    rcases hb with hb | hb
    · simp at hb
    · simp [hgood] at hb
  data _ y hy _ i _ := by
    obtain rfl := (inWalk_of_last hgood hle).mp hy
    simp [Nand.program]

/-- Before a round is complete, no block comes again. -/
theorem ne_of_few (hgood : bad (x % nandBlocks) = false)
    (hfew : chunkCount count ≤ goodRank bad nandBlocks) (hxy : x < y)
    (hwalk : InWalk bad x count y) : y % nandBlocks ≠ x % nandBlocks := by
  intro heq
  have hrank : goodRank bad x < goodRank bad y := rank_lt hgood hxy
  have hmod := (mod_eq_iff_rank (p := fun b => bad b = false) (by decide) (heq ▸ hgood) hgood).mp heq
  change goodRank bad y % goodRank bad nandBlocks = goodRank bad x % goodRank bad nandBlocks at hmod
  have hdvd := Nat.dvd_of_mod_eq_zero (Nat.sub_mod_eq_zero_of_mod_eq hmod)
  have hle := Nat.le_of_dvd (by omega) hdvd
  have hlt := hwalk.2
  omega

/-- The data of a block, in what is left for the next one. -/
theorem getD_rest (src : List UInt8) {lo hi : ℕ} (hlt : lo + 1 ≤ hi) (i : ℕ) :
    (src.drop nandBlockSize).getD (nandBlockSize * (hi - (lo + 1)) + i) 0xff =
      src.getD (nandBlockSize * (hi - lo) + i) 0xff := by
  have hstep : hi - lo = hi - (lo + 1) + 1 := by omega
  have hpos : nandBlockSize + (nandBlockSize * (hi - (lo + 1)) + i) =
      nandBlockSize * (hi - lo) + i := by
    rw [hstep, Nat.mul_add_one]
    omega
  rw [List.getD_eq_getElem?_getD, List.getD_eq_getElem?_getD, List.getElem?_drop, hpos]

theorem WroteFrom.good_turn (hgood : bad (x % nandBlocks) = false)
    (hgt : nandBlockSize < src.length)
    (h : WroteFrom bad (x + 1) (src.drop nandBlockSize)
      (nand.program (x % nandBlocks) (src.take nandBlockSize)) r) :
    WroteFrom bad x src nand
      { r with touched := x % nandBlocks :: r.touched, held := x % nandBlocks :: r.held } := by
  have hlen : (src.drop nandBlockSize).length = src.length - nandBlockSize := List.length_drop
  have hrest : src.drop nandBlockSize ≠ [] := by
    apply List.ne_nil_of_length_pos
    omega
  have hsrc : src ≠ [] := by
    apply List.ne_nil_of_length_pos
    omega
  have hsucc := goodRank_succ_of_good hgood
  constructor
  case touched =>
    intro b
    simp only [List.mem_cons, h.touched, hlen, inWalk_of_good hgood hgt, or_and_right, exists_or,
      exists_eq_left, eq_comm (a := b)]
  case held =>
    intro b
    simp only [List.mem_cons, h.held, hlen, inWalk_of_good hgood hgt, or_and_right, exists_or,
      exists_eq_left, hgood, hrest, hsrc, ne_eq, not_false_eq_true, true_and, eq_comm (a := b)]
  case marked =>
    intro b
    rw [h.marked]
    by_cases hb : b = x % nandBlocks
    · simp [hb, Nand.program, hgood]
    · simp [hb, Nand.program]
  case other =>
    intro b hb
    have hne : b ≠ x % nandBlocks := by
      rintro rfl
      rcases hb with hb | hb
      · simp at hb
      · simp [hgood] at hb
    rw [h.other b (hb.imp_left fun hb hmem => hb (List.mem_cons_of_mem _ hmem))]
    exact Function.update_of_ne hne _ _
  case data =>
    intro hfew y hy hgoody i hi
    rcases (inWalk_of_good hgood hgt).mp hy with rfl | hy'
    · -- the rest of the data does not come back to the first block
      have hout : y % nandBlocks ∉ r.touched := by
        intro hmem
        obtain ⟨z, hz, heq⟩ := (h.touched _).mp hmem
        rw [hlen] at hz
        exact ne_of_few hgood hfew hz.1 ((inWalk_of_good hgood hgt).mpr (Or.inr hz)) heq
      rw [h.other _ (Or.inl hout)]
      simp only [Nand.program, Function.update_self, Nat.sub_self, Nat.mul_zero, Nat.zero_add]
      rw [List.getD_eq_getElem?_getD, List.getD_eq_getElem?_getD, List.getElem?_take, if_pos hi]
    · have hfew' : chunkCount (src.drop nandBlockSize).length ≤ goodRank bad nandBlocks := by
        rw [chunkCount_of_gt hgt] at hfew
        rw [hlen]
        omega
      rw [h.data hfew' y (by rwa [hlen]) hgoody i hi, hsucc]
      have hle : goodRank bad (x + 1) ≤ goodRank bad y := goodRank_mono hy'.1
      rw [hsucc] at hle
      exact getD_rest src hle i

/-- **What a write does**, when it returns. -/
theorem WroteFrom.nandWriteLoop (h : nandWriteLoop bad fuel (x % nandBlocks) src nand = some r) :
    WroteFrom bad x src nand r := by
  induction fuel generalizing x src nand r with
  | zero => simp [Fs.nandWriteLoop] at h
  | succ fuel ih =>
    rw [Fs.nandWriteLoop, nextBlock_mod] at h
    split at h
    · rename_i hbad
      obtain ⟨r', hr', rfl⟩ := Option.map_eq_some_iff.mp h
      exact (ih hr').bad_turn hbad
    · rename_i hgood
      simp only [Bool.not_eq_true] at hgood
      split at h
      · rename_i hle
        cases h
        exact .last_turn hgood hle
      · rename_i hgt
        obtain ⟨r', hr', rfl⟩ := Option.map_eq_some_iff.mp h
        exact (ih hr').good_turn hgood (by omega)

/-- A write returns when there are as many good blocks on the way as it needs. -/
theorem nandWriteLoop_returns
    (h : goodRank bad x + chunkCount src.length ≤ goodRank bad (x + fuel)) :
    ∃ r, nandWriteLoop bad fuel (x % nandBlocks) src nand = some r := by
  induction fuel generalizing x src nand with
  | zero =>
    have hpos := chunkCount_pos src.length
    rw [Nat.add_zero] at h
    omega
  | succ fuel ih =>
    have hplace : x + (fuel + 1) = x + 1 + fuel := by omega
    rw [hplace] at h
    rw [nandWriteLoop, nextBlock_mod]
    split
    · rename_i hbad
      obtain ⟨r, hr⟩ : ∃ r, nandWriteLoop bad fuel ((x + 1) % nandBlocks) src
          (nand.mark (x % nandBlocks)) = some r := by
        apply ih
        rwa [goodRank_succ_of_bad hbad]
      simp [hr]
    · rename_i hgood
      simp only [Bool.not_eq_true] at hgood
      split
      · simp
      · rename_i hgt
        have hlen : (src.drop nandBlockSize).length = src.length - nandBlockSize := List.length_drop
        obtain ⟨r, hr⟩ : ∃ r, nandWriteLoop bad fuel ((x + 1) % nandBlocks)
            (src.drop nandBlockSize)
            (nand.program (x % nandBlocks) (src.take nandBlockSize)) = some r := by
          apply ih
          rw [chunkCount_of_gt (by omega)] at h
          rw [hlen, goodRank_succ_of_good hgood]
          omega
        simp [hr]

/-- With all blocks bad, it does not. -/
theorem nandWriteLoop_of_all_bad (hall : ∀ b < nandBlocks, bad b = true) :
    nandWriteLoop bad fuel (x % nandBlocks) src nand = none := by
  induction fuel generalizing x nand with
  | zero => rfl
  | succ fuel ih =>
    rw [nandWriteLoop, nextBlock_mod, if_pos (hall _ (Nat.mod_lt _ (by decide))), ih]
    rfl

/-! ## §4 Reading back -/

/-- **When a read gets what was written**: along the walk of the write, the blocks are marked as far
    as they are bad, and the others have the data. -/
theorem nandReadLoop_eq (hfuel : goodRank bad x + chunkCount src.length ≤ goodRank bad (x + fuel))
    (hmarked : ∀ y, InWalk bad x src.length y →
      nand.marked (y % nandBlocks) = bad (y % nandBlocks))
    (hdata : ∀ y, InWalk bad x src.length y → bad (y % nandBlocks) = false →
      ∀ i < nandBlockSize, nand.data (y % nandBlocks) i =
        src.getD (nandBlockSize * (goodRank bad y - goodRank bad x) + i) 0xff) :
    nandReadLoop nand fuel (x % nandBlocks) src.length = some src := by
  induction fuel generalizing x src with
  | zero =>
    have hpos := chunkCount_pos src.length
    rw [Nat.add_zero] at hfuel
    omega
  | succ fuel ih =>
    have hplace : x + (fuel + 1) = x + 1 + fuel := by omega
    have hhere : InWalk bad x src.length x :=
      ⟨Nat.le_refl x, Nat.lt_add_of_pos_right (chunkCount_pos _)⟩
    have hchunk : ∀ n ≤ nandBlockSize, n ≤ src.length → bad (x % nandBlocks) = false →
        (List.range n).map (nand.data (x % nandBlocks)) = src.take n := by
      intro n hn hle hgood
      apply List.ext_getElem
      · simp [hle]
      · intro i hi hi'
        simp only [List.length_map, List.length_range] at hi
        rw [List.getElem_map, List.getElem_range, hdata x hhere hgood i (by omega),
          Nat.sub_self, Nat.mul_zero, Nat.zero_add, List.getElem_take]
        exact List.getD_eq_getElem _ _ _
    rw [hplace] at hfuel
    rw [nandReadLoop, nextBlock_mod, hmarked x hhere]
    split
    · rename_i hbad
      apply ih
      · rwa [goodRank_succ_of_bad hbad]
      · intro y hy
        exact hmarked y ((inWalk_of_bad hbad).mpr (Or.inr hy))
      · intro y hy hgood
        rw [goodRank_succ_of_bad hbad]
        exact hdata y ((inWalk_of_bad hbad).mpr (Or.inr hy)) hgood
    · rename_i hgood
      simp only [Bool.not_eq_true] at hgood
      split
      · rename_i hle
        rw [hchunk _ hle (Nat.le_refl _) hgood, List.take_length]
      · rename_i hgt
        have hlen : (src.drop nandBlockSize).length = src.length - nandBlockSize := List.length_drop
        have hrest : nandReadLoop nand fuel ((x + 1) % nandBlocks) (src.length - nandBlockSize) =
            some (src.drop nandBlockSize) := by
          rw [← hlen]
          apply ih
          · rw [chunkCount_of_gt (by omega)] at hfuel
            rw [hlen, goodRank_succ_of_good hgood]
            omega
          · intro y hy
            rw [hlen] at hy
            exact hmarked y ((inWalk_of_good hgood (by omega)).mpr (Or.inr hy))
          · intro y hy hgoody i hi
            rw [hlen] at hy
            have hsucc := goodRank_succ_of_good hgood
            have hle : goodRank bad (x + 1) ≤ goodRank bad y := goodRank_mono hy.1
            rw [hsucc] at hle
            rw [hdata y ((inWalk_of_good hgood (by omega)).mpr (Or.inr hy)) hgoody i hi, hsucc]
            -- the block is one further on from here
            exact (getD_rest src hle i).symm
        rw [hrest, hchunk _ (Nat.le_refl _) (by omega) hgood]
        simp

/-- Marked blocks are walked over. -/
theorem nandReadLoop_skip {k : ℕ} (hskip : ∀ j < k, nand.marked ((x + j) % nandBlocks) = true) :
    nandReadLoop nand (k + fuel) (x % nandBlocks) count =
      nandReadLoop nand fuel ((x + k) % nandBlocks) count := by
  induction k generalizing x with
  | zero => rw [Nat.zero_add, Nat.add_zero]
  | succ k ih =>
    have hfirst := hskip 0 (Nat.succ_pos k)
    rw [Nat.add_zero] at hfirst
    have hfuel : k + 1 + fuel = k + fuel + 1 := by omega
    have hplace : x + (k + 1) = x + 1 + k := by omega
    rw [hfuel, nandReadLoop, if_pos hfirst, nextBlock_mod, hplace]
    apply ih
    intro j hj
    have hj' := hskip (j + 1) (by omega)
    rwa [show x + (j + 1) = x + 1 + j by omega] at hj'

end Pmon.Fs
