import Pmon.Fs.NandOpt

/-!
# Two ranges of a NAND flash

Two calls of `nandwrite_set_badblock`, one after the other, and what `nandread_check_badblock` gets
of both.  A range starts at its block plus the number of marked blocks in front of it, which need not
be as many blocks behind the bad ones as its number says; and a mark that is made later moves the
start of the ranges behind it.

## Key results

- `apart_iff`: when the blocks of the two calls are apart.
- `nandRanges_exact`: when both ranges can be read back, whatever their data.
-/

namespace Pmon.Fs

open Pmon.Lib

/-! ## §1 What is asked for -/

/-- Both calls return, none of them erases or programs a block that holds data of the other, and both
    ranges read back. -/
def KeepsBoth (bad : ℕ → Bool) (nand : Nand) (block₁ : ℕ) (src₁ : List UInt8) (block₂ : ℕ)
    (src₂ : List UInt8) : Prop :=
  ∃ r₁ r₂, nandwriteSetBadblock bad nand block₁ src₁ = some r₁ ∧
    nandwriteSetBadblock bad r₁.nand block₂ src₂ = some r₂ ∧
      ((∀ b ∈ r₁.touched, b ∉ r₂.held) ∧ ∀ b ∈ r₂.touched, b ∉ r₁.held) ∧
        nandreadCheckBadblock r₂.nand block₁ src₁.length = some src₁ ∧
          nandreadCheckBadblock r₂.nand block₂ src₂.length = some src₂

/-- The first block from `s` on that is not skipped. -/
def firstFree (skip : ℕ → Bool) (s : ℕ) : Option ℕ :=
  ((List.range nandBlocks).find? fun d => !skip ((s + d) % nandBlocks)).map fun d =>
    (s + d) % nandBlocks

/-- Whether a call of `count` bytes from `s` on walks over `b`. -/
def walksOver (bad : ℕ → Bool) (s count b : ℕ) : Bool :=
  b < nandBlocks && goodRank bad (s + gap nandBlocks s b) < goodRank bad s + chunkCount count

/-- The marks when the blocks of a call are marked as far as they are bad. -/
def walkMarks (bad marked : ℕ → Bool) (s count : ℕ) (b : ℕ) : Bool :=
  if walksOver bad s count b then bad b else marked b

/-- The start of the first call, the marks behind it, the start of the second, and the marks behind
    both. -/
structure NandPlan where
  start₁ : ℕ
  start₂ : ℕ
  marks : ℕ → Bool

def nandPlan (bad marked : ℕ → Bool) (block₁ count₁ block₂ count₂ : ℕ) : NandPlan :=
  let start₁ := getAddrJumpBadblocks marked block₁
  let marks₁ := walkMarks bad marked start₁ count₁
  let start₂ := getAddrJumpBadblocks marks₁ block₂
  ⟨start₁, start₂, walkMarks bad marks₁ start₂ count₂⟩

/-- Among the good blocks, each call ends before the other begins; and for all marks that there are
    then, a read begins with the good block where the write began. -/
structure RangesApart (bad : ℕ → Bool) (plan : NandPlan) (block₁ count₁ block₂ count₂ : ℕ) :
    Prop where
  some_good : 0 < goodRank bad nandBlocks
  apart : count₁ = 0 ∧ count₂ = 0 ∨
    chunkCount count₁ ≤ gap (goodRank bad nandBlocks) (goodRank bad plan.start₁)
        (goodRank bad plan.start₂) ∧
      chunkCount count₂ ≤ gap (goodRank bad nandBlocks) (goodRank bad plan.start₂)
        (goodRank bad plan.start₁)
  begins₁ : 0 < count₁ →
    firstFree plan.marks (getAddrJumpBadblocks plan.marks block₁) = firstFree bad plan.start₁
  begins₂ : 0 < count₂ →
    firstFree plan.marks (getAddrJumpBadblocks plan.marks block₂) = firstFree bad plan.start₂

variable {bad marked : ℕ → Bool} {x y s s' c count fuel block₁ block₂ count₁ count₂ : ℕ}
  {src src₁ src₂ : List UInt8} {nand : Nand} {r r₁ r₂ : NandWritten}

/-! ## §2 Places -/

theorem start_mod (marked : ℕ → Bool) (block : ℕ) :
    getAddrJumpBadblocks marked block % nandBlocks = getAddrJumpBadblocks marked block :=
  Nat.mod_mod _ _

/-- The first block that is free: those in front of it are skipped. -/
theorem firstFree_eq_some {skip : ℕ → Bool} :
    firstFree skip s = some c ↔ ∃ d < nandBlocks, c = (s + d) % nandBlocks ∧ skip c = false ∧
      ∀ j < d, skip ((s + j) % nandBlocks) = true := by
  unfold firstFree
  rw [Option.map_eq_some_iff]
  constructor
  · rintro ⟨d, hd, rfl⟩
    rw [List.find?_range_eq_some] at hd
    obtain ⟨hfree, hlt, hskip⟩ := hd
    refine ⟨d, by simpa using hlt, rfl, by simpa using hfree, ?_⟩
    intro j hj
    simpa using hskip j hj
  · rintro ⟨d, hlt, rfl, hfree, hskip⟩
    refine ⟨d, ?_, rfl⟩
    rw [List.find?_range_eq_some]
    refine ⟨by simp [hfree], by simpa using hlt, ?_⟩
    intro j hj
    simp [hskip j hj]

theorem exists_firstFree {skip : ℕ → Bool} (hc : c < nandBlocks) (hfree : skip c = false) :
    ∃ c', firstFree skip s = some c' := by
  have hplace : (s + gap nandBlocks s c) % nandBlocks = c := by
    rw [add_gap_mod (by decide), Nat.mod_eq_of_lt hc]
  unfold firstFree
  cases hfind : (List.range nandBlocks).find? fun d => !skip ((s + d) % nandBlocks) with
  | some d => exact ⟨_, rfl⟩
  | none =>
    rw [List.find?_range_eq_none] at hfind
    have hskip := hfind (gap nandBlocks s c) (gap_lt (by decide))
    simp [hplace, hfree] at hskip

/-- The first good block of a walk. -/
theorem firstFree_of_rank (hle : s ≤ y) (hgood : bad (y % nandBlocks) = false)
    (hrank : goodRank bad y = goodRank bad s) : firstFree bad s = some (y % nandBlocks) := by
  rw [firstFree_eq_some]
  have hplace : s + (y - s) = y := by omega
  refine ⟨y - s, ?_, by rw [hplace], hgood, ?_⟩
  · -- not a whole round, for the block itself would be in it
    by_contra hround
    have hmono : goodRank bad (nandBlocks + s) ≤ goodRank bad y := goodRank_mono (by omega)
    have hadd : goodRank bad (nandBlocks + s) = goodRank bad nandBlocks + goodRank bad s :=
      rank_add_round s
    have hpos : goodRank bad (y % nandBlocks) < goodRank bad nandBlocks :=
      rank_mod_lt (p := fun b => bad b = false) (by decide) hgood
    omega
  · intro j hj
    by_contra hfree
    have hsucc := goodRank_succ_of_good (Bool.not_eq_true _ ▸ hfree)
    have hmono : goodRank bad (s + j + 1) ≤ goodRank bad y := goodRank_mono (by omega)
    have hstart : goodRank bad s ≤ goodRank bad (s + j) := goodRank_mono (by omega)
    omega

theorem firstFree_rank {d : ℕ} (hskip : ∀ j < d, bad ((s + j) % nandBlocks) = true) :
    goodRank bad (s + d) = goodRank bad s := by
  induction d with
  | zero => rfl
  | succ d ih =>
    rw [← Nat.add_assoc, goodRank_succ_of_bad (hskip d (Nat.lt_succ_self d))]
    exact ih fun j hj => hskip j (Nat.lt_succ_of_lt hj)

theorem walksOver_iff {b : ℕ} :
    walksOver bad s count b = true ↔ ∃ y, InWalk bad s count y ∧ y % nandBlocks = b := by
  simp only [walksOver, Bool.and_eq_true, decide_eq_true_eq]
  constructor
  · rintro ⟨hlt, hrank⟩
    refine ⟨_, ⟨Nat.le_add_right _ _, hrank⟩, ?_⟩
    rw [add_gap_mod (by decide), Nat.mod_eq_of_lt hlt]
  · rintro ⟨y, ⟨hle, hrank⟩, rfl⟩
    refine ⟨Nat.mod_lt _ (by decide), Nat.lt_of_le_of_lt (goodRank_mono ?_) hrank⟩
    -- the place that is found first is not behind `y`
    have hgap : gap nandBlocks s (y % nandBlocks) = (y - s) % nandBlocks := by
      have hmod := add_gap_mod (g := nandBlocks) (a := s) (b := y % nandBlocks) (by decide)
      have hlt := gap_lt (g := nandBlocks) (a := s) (b := y % nandBlocks) (by decide)
      unfold nandBlocks at *
      omega
    have hsmall := Nat.mod_le (y - s) nandBlocks
    omega

/-! ## §3 One call -/

/-- A call that returns has written from its start on. -/
theorem wroteFrom_call (h : nandwriteSetBadblock bad nand block₁ src = some r) :
    WroteFrom bad (getAddrJumpBadblocks nand.marked block₁) src nand r := by
  unfold nandwriteSetBadblock at h
  rw [← start_mod] at h
  exact .nandWriteLoop h

/-- The turns that a call may take are enough for its blocks. -/
theorem goodRank_fuel (hsome : 0 < goodRank bad nandBlocks) (x count : ℕ) :
    goodRank bad x + chunkCount count ≤ goodRank bad (x + nandFuel count) := by
  have hrounds : goodRank bad (nandBlocks * (count + 1) + x) =
      goodRank bad nandBlocks * (count + 1) + goodRank bad x := rank_add_rounds _ _
  have hchunk : chunkCount count ≤ count + 1 := by
    unfold chunkCount nandBlockSize
    omega
  have hmul : 1 * (count + 1) ≤ goodRank bad nandBlocks * (count + 1) :=
    Nat.mul_le_mul_right _ hsome
  rw [nandFuel, Nat.add_comm x, hrounds]
  omega

theorem call_returns (hsome : 0 < goodRank bad nandBlocks) (nand : Nand) (block : ℕ)
    (src : List UInt8) : ∃ r, nandwriteSetBadblock bad nand block src = some r := by
  unfold nandwriteSetBadblock
  rw [← start_mod]
  exact nandWriteLoop_returns (goodRank_fuel hsome _ _)

/-- The marks do not depend on the data. -/
theorem WroteFrom.marked_eq (h : WroteFrom bad x src nand r) :
    r.nand.marked = walkMarks bad nand.marked x src.length := by
  funext b
  rw [h.marked, walkMarks]
  by_cases hb : b ∈ r.touched
  · rw [if_pos hb, if_pos (walksOver_iff.mpr ((h.touched b).mp hb))]
  · rw [if_neg hb, if_neg (mt walksOver_iff.mp (mt (h.touched b).mpr hb))]

/-- The first good block is in every walk. -/
theorem exists_inWalk (hsome : 0 < goodRank bad nandBlocks) (x count : ℕ) :
    ∃ y, InWalk bad x count y ∧ bad (y % nandBlocks) = false := by
  obtain ⟨y, hle, hgood, hrank⟩ := exists_rank (N := nandBlocks) (p := fun b => bad b = false)
    (by decide) hsome x 0
  refine ⟨y, ⟨hle, ?_⟩, hgood⟩
  have hpos := chunkCount_pos count
  change goodRank bad y = goodRank bad x + 0 at hrank
  omega

/-- A call leaves a block without a mark. -/
theorem WroteFrom.exists_free (h : WroteFrom bad x src nand r)
    (hsome : 0 < goodRank bad nandBlocks) : ∃ b < nandBlocks, r.nand.marked b = false := by
  obtain ⟨y, hwalk, hgood⟩ := exists_inWalk hsome x src.length
  refine ⟨y % nandBlocks, Nat.mod_lt _ (by decide), ?_⟩
  rw [h.marked, if_pos ((h.touched _).mpr ⟨y, hwalk, rfl⟩)]
  exact hgood

/-! ## §4 Two calls -/

/-- **When the blocks of the two calls are apart.** -/
theorem apart_iff (hsome : 0 < goodRank bad nandBlocks) (h₁ : WroteFrom bad x src₁ nand r₁)
    (h₂ : WroteFrom bad y src₂ r₁.nand r₂) :
    ((∀ b ∈ r₁.touched, b ∉ r₂.held) ∧ ∀ b ∈ r₂.touched, b ∉ r₁.held) ↔
      src₁.length = 0 ∧ src₂.length = 0 ∨
        chunkCount src₁.length ≤ gap (goodRank bad nandBlocks) (goodRank bad x) (goodRank bad y) ∧
          chunkCount src₂.length ≤
            gap (goodRank bad nandBlocks) (goodRank bad y) (goodRank bad x) := by
  have hplaces := places_apart_iff (p := fun b => bad b = false) (x := x) (a := y)
    (N := nandBlocks) (m := chunkCount src₁.length) (n := chunkCount src₂.length) (by decide) hsome
    (chunkCount_pos _) (chunkCount_pos _)
  have hheld₁ : src₁ = [] → ∀ b, b ∉ r₁.held := by
    intro hsrc b hb
    exact ((h₁.held b).mp hb).1 hsrc
  have hheld₂ : src₂ = [] → ∀ b, b ∉ r₂.held := by
    intro hsrc b hb
    exact ((h₂.held b).mp hb).1 hsrc
  rw [List.length_eq_zero_iff, List.length_eq_zero_iff]
  constructor
  · rintro ⟨hfirst, hsecond⟩
    by_cases hempty : src₁ = [] ∧ src₂ = []
    · exact Or.inl hempty
    · refine Or.inr (hplaces.mp ?_)
      intro z w hz hgoodz hrankz hw hgoodw hrankw heq
      -- one of the two has data, and the other one may not come to it
      by_cases hsrc : src₁ = []
      · apply hfirst (z % nandBlocks) ((h₁.touched _).mpr ⟨z, ⟨hz, hrankz⟩, rfl⟩)
        exact (h₂.held _).mpr
          ⟨fun hsrc' => hempty ⟨hsrc, hsrc'⟩, w, ⟨hw, hrankw⟩, hgoodw, heq.symm⟩
      · apply hsecond (w % nandBlocks) ((h₂.touched _).mpr ⟨w, ⟨hw, hrankw⟩, rfl⟩)
        exact (h₁.held _).mpr ⟨hsrc, z, ⟨hz, hrankz⟩, hgoodz, heq⟩
  · rintro (⟨hsrc₁, hsrc₂⟩ | hgaps)
    · exact ⟨fun b _ => hheld₂ hsrc₂ b, fun b _ => hheld₁ hsrc₁ b⟩
    · have hmeet := hplaces.mpr hgaps
      constructor
      · intro b hb hb'
        obtain ⟨z, hz, rfl⟩ := (h₁.touched b).mp hb
        obtain ⟨-, w, hw, hgood, heq⟩ := (h₂.held _).mp hb'
        exact hmeet z w hz.1 (heq ▸ hgood) hz.2 hw.1 hgood hw.2 heq.symm
      · intro b hb hb'
        obtain ⟨w, hw, rfl⟩ := (h₂.touched b).mp hb
        obtain ⟨-, z, hz, hgood, heq⟩ := (h₁.held _).mp hb'
        exact hmeet z w hz.1 hgood hz.2 hw.1 (heq ▸ hgood) hw.2 heq

/-- What is in a block after both calls. -/
theorem data_cases (h₁ : WroteFrom bad x src₁ nand r₁) (h₂ : WroteFrom bad y src₂ r₁.nand r₂)
    (hfew₁ : chunkCount src₁.length ≤ goodRank bad nandBlocks)
    (hfew₂ : chunkCount src₂.length ≤ goodRank bad nandBlocks) (c : ℕ) :
    (∃ z, InWalk bad y src₂.length z ∧ bad (z % nandBlocks) = false ∧ z % nandBlocks = c ∧
      r₂.nand.data c 0 = src₂.getD (nandBlockSize * (goodRank bad z - goodRank bad y)) 0xff) ∨
    (∃ z, InWalk bad x src₁.length z ∧ bad (z % nandBlocks) = false ∧ z % nandBlocks = c ∧
      r₂.nand.data c 0 = src₁.getD (nandBlockSize * (goodRank bad z - goodRank bad x)) 0xff) ∨
    r₂.nand.data c 0 = nand.data c 0 := by
  by_cases htouched : c ∈ r₂.touched ∧ bad c = false
  · obtain ⟨z, hz, rfl⟩ := (h₂.touched c).mp htouched.1
    exact Or.inl ⟨z, hz, htouched.2, rfl, h₂.data hfew₂ z hz htouched.2 0 (by decide)⟩
  · have hkept : c ∉ r₂.touched ∨ bad c = true := by
      by_cases hc : c ∈ r₂.touched
      · exact Or.inr (by simpa using fun hgood => htouched ⟨hc, hgood⟩)
      · exact Or.inl hc
    rw [h₂.other c hkept]
    by_cases htouched' : c ∈ r₁.touched ∧ bad c = false
    · obtain ⟨z, hz, rfl⟩ := (h₁.touched c).mp htouched'.1
      exact Or.inr (Or.inl ⟨z, hz, htouched'.2, rfl,
        h₁.data hfew₁ z hz htouched'.2 0 (by decide)⟩)
    · have hkept' : c ∉ r₁.touched ∨ bad c = true := by
        by_cases hc : c ∈ r₁.touched
        · exact Or.inr (by simpa using fun hgood => htouched' ⟨hc, hgood⟩)
        · exact Or.inl hc
      rw [h₁.other c hkept']
      exact Or.inr (Or.inr rfl)

/-! ## §5 Reading -/

/-- A read goes on to the first block without a mark. -/
theorem read_of_firstFree (count : ℕ) (hfree : firstFree nand.marked s = some c) :
    ∃ d < nandBlocks, nandReadLoop nand (nandFuel count) (s % nandBlocks) count =
      nandReadLoop nand (nandBlocks * count + (nandBlocks - d)) c count := by
  obtain ⟨d, hd, rfl, -, hskip⟩ := firstFree_eq_some.mp hfree
  refine ⟨d, hd, ?_⟩
  have hfuel : nandFuel count = d + (nandBlocks * count + (nandBlocks - d)) := by
    rw [nandFuel, Nat.mul_add_one]
    omega
  rw [hfuel, nandReadLoop_skip hskip]

theorem read_empty (hfree : firstFree nand.marked s = some c) :
    nandReadLoop nand (nandFuel 0) (s % nandBlocks) 0 = some [] := by
  obtain ⟨d, hd, hread⟩ := read_of_firstFree 0 hfree
  obtain ⟨-, -, -, hmark, -⟩ := firstFree_eq_some.mp hfree
  obtain ⟨fuel, hfuel⟩ : ∃ fuel, nandBlocks * 0 + (nandBlocks - d) = fuel + 1 :=
    ⟨nandBlocks - d - 1, by omega⟩
  rw [hread, hfuel, nandReadLoop, if_neg (by simp [hmark]), if_pos (Nat.zero_le _)]
  rfl

/-- The first byte that is read is in the first block without a mark. -/
theorem read_first {bytes : List UInt8} (hfree : firstFree nand.marked s = some c)
    (hcount : 0 < count)
    (hread : nandReadLoop nand (nandFuel count) (s % nandBlocks) count = some bytes) :
    bytes.head? = some (nand.data c 0) := by
  obtain ⟨d, hd, hskip⟩ := read_of_firstFree count hfree
  obtain ⟨-, -, -, hmark, -⟩ := firstFree_eq_some.mp hfree
  obtain ⟨fuel, hfuel⟩ : ∃ fuel, nandBlocks * count + (nandBlocks - d) = fuel + 1 :=
    ⟨nandBlocks * count + (nandBlocks - d) - 1, by omega⟩
  have hhead : ∀ n, 0 < n → ((List.range n).map (nand.data c)).head? = some (nand.data c 0) := by
    intro n hn
    obtain ⟨k, rfl⟩ : ∃ k, n = k + 1 := ⟨n - 1, by omega⟩
    rw [List.range_succ_eq_map]
    rfl
  rw [hskip, hfuel, nandReadLoop, if_neg (by simp [hmark])] at hread
  split at hread
  · cases hread
    exact hhead _ hcount
  · obtain ⟨rest, -, rfl⟩ := Option.map_eq_some_iff.mp hread
    rw [List.head?_append, hhead _ (by decide)]
    rfl

/-- A read that begins where the write began. -/
theorem read_back (hsome : 0 < goodRank bad nandBlocks) (hsrc : src ≠ [])
    (hbegins : firstFree nand.marked s' = firstFree bad s)
    (hmarked : ∀ y, InWalk bad s src.length y →
      nand.marked (y % nandBlocks) = bad (y % nandBlocks))
    (hdata : ∀ y, InWalk bad s src.length y → bad (y % nandBlocks) = false →
      ∀ i < nandBlockSize, nand.data (y % nandBlocks) i =
        src.getD (nandBlockSize * (goodRank bad y - goodRank bad s) + i) 0xff) :
    nandReadLoop nand (nandFuel src.length) (s' % nandBlocks) src.length = some src := by
  obtain ⟨z, hz, hgoodz⟩ := exists_inWalk hsome s 0
  obtain ⟨c, hc⟩ := exists_firstFree (s := s) (Nat.mod_lt _ (by decide)) hgoodz
  obtain ⟨d, -, rfl, -, hskip⟩ := firstFree_eq_some.mp hc
  obtain ⟨e, he, hread⟩ := read_of_firstFree src.length (hbegins.trans hc)
  have hrank : goodRank bad (s + d) = goodRank bad s := firstFree_rank hskip
  have hwalk : ∀ y, InWalk bad (s + d) src.length y → InWalk bad s src.length y := by
    rintro y ⟨hle, hlt⟩
    rw [hrank] at hlt
    exact ⟨by omega, hlt⟩
  -- the rounds that are left are enough for the data
  have hturns : goodRank bad (s + d) + chunkCount src.length ≤
      goodRank bad (s + d + (nandBlocks * src.length + (nandBlocks - e))) := by
    have hrounds : goodRank bad (nandBlocks * src.length + (s + d)) =
        goodRank bad nandBlocks * src.length + goodRank bad (s + d) := rank_add_rounds _ _
    have hmono : goodRank bad (nandBlocks * src.length + (s + d)) ≤
        goodRank bad (s + d + (nandBlocks * src.length + (nandBlocks - e))) :=
      goodRank_mono (by omega)
    have hpos := List.length_pos_iff.mpr hsrc
    have hchunk : chunkCount src.length ≤ src.length := by
      unfold chunkCount nandBlockSize
      omega
    have hmul : 1 * src.length ≤ goodRank bad nandBlocks * src.length :=
      Nat.mul_le_mul_right _ hsome
    omega
  rw [hread]
  apply nandReadLoop_eq hturns
  · intro y hy
    exact hmarked y (hwalk y hy)
  · intro y hy hgood
    rw [hrank]
    exact hdata y (hwalk y hy) hgood

/-! ## §6 Both ranges -/

/-- The calls, as far as the plan says it. -/
theorem planned (h₁ : nandwriteSetBadblock bad nand block₁ src₁ = some r₁)
    (h₂ : nandwriteSetBadblock bad r₁.nand block₂ src₂ = some r₂) :
    WroteFrom bad (nandPlan bad nand.marked block₁ src₁.length block₂ src₂.length).start₁ src₁ nand
        r₁ ∧
      WroteFrom bad (nandPlan bad nand.marked block₁ src₁.length block₂ src₂.length).start₂ src₂
          r₁.nand r₂ ∧
        r₂.nand.marked = (nandPlan bad nand.marked block₁ src₁.length block₂ src₂.length).marks := by
  have hw₁ := wroteFrom_call h₁
  have hw₂ := wroteFrom_call h₂
  have hmarks := hw₂.marked_eq
  rw [hw₁.marked_eq] at hw₂ hmarks
  exact ⟨hw₁, hw₂, hmarks⟩

theorem gap_few {g a b m : ℕ} (hg : 0 < g) (hle : m ≤ gap g a b) : m ≤ g :=
  Nat.le_trans hle (Nat.le_of_lt (gap_lt hg))

/-- Data of zeros with one byte in front. -/
def marker (v : UInt8) (n : ℕ) : List UInt8 := v :: List.replicate (n - 1) 0

theorem length_marker {v : UInt8} (h : 0 < count) : (marker v count).length = count := by
  simp [marker]
  omega

theorem getD_replicate_zero (n k : ℕ) :
    (List.replicate n (0 : UInt8)).getD k 0xff = 0 ∨
      (List.replicate n (0 : UInt8)).getD k 0xff = 0xff := by
  rw [List.getD_eq_getElem?_getD, List.getElem?_replicate]
  split
  · exact Or.inl rfl
  · exact Or.inr rfl

theorem getD_marker {v : UInt8} {n k : ℕ} (hk : 0 < k) :
    (marker v n).getD k 0xff = 0 ∨ (marker v n).getD k 0xff = 0xff := by
  obtain ⟨j, rfl⟩ : ∃ j, k = j + 1 := ⟨k - 1, by omega⟩
  exact getD_replicate_zero (n - 1) j

/-- In a block that is not the first of its walk, there is nothing of the byte in front. -/
theorem getD_marker_of_walk {v : UInt8} {n : ℕ} (hwalk : InWalk bad s count y)
    (hgood : bad (y % nandBlocks) = false) (hne : firstFree bad s ≠ some (y % nandBlocks)) :
    (marker v n).getD (nandBlockSize * (goodRank bad y - goodRank bad s)) 0xff = 0 ∨
      (marker v n).getD (nandBlockSize * (goodRank bad y - goodRank bad s)) 0xff = 0xff := by
  apply getD_marker
  have hmono : goodRank bad s ≤ goodRank bad y := goodRank_mono hwalk.1
  have hrank : goodRank bad y ≠ goodRank bad s := fun heq =>
    hne (firstFree_of_rank hwalk.1 hgood heq)
  exact Nat.mul_pos (by decide) (by omega)

/-- A byte that is neither of the three. -/
theorem exists_marker (a : UInt8) : ∃ v : UInt8, v ≠ 0 ∧ v ≠ 0xff ∧ v ≠ a := by
  by_cases ha : a = 1
  · exact ⟨2, by decide, by decide, by rw [ha]; decide⟩
  · exact ⟨1, by decide, by decide, fun h => ha h.symm⟩

/-- A read of the byte in front finds it in the first block without a mark. -/
theorem byte_of_marker {v : UInt8} (hcount : 0 < count)
    (hfree : firstFree nand.marked (getAddrJumpBadblocks nand.marked block₁) = some c)
    (hread : nandreadCheckBadblock nand block₁ count = some (marker v count)) :
    nand.data c 0 = v := by
  unfold nandreadCheckBadblock at hread
  rw [← start_mod] at hread
  have hhead := read_first hfree hcount hread
  simp only [marker, List.head?_cons, Option.some.injEq] at hhead
  exact hhead.symm

/-- What a plan asks of all data. -/
def KeepsAll (bad : ℕ → Bool) (nand : Nand) (block₁ count₁ block₂ count₂ : ℕ) : Prop :=
  ∀ src₁ src₂ : List UInt8, src₁.length = count₁ → src₂.length = count₂ →
    KeepsBoth bad nand block₁ src₁ block₂ src₂

theorem filler_ne {a v : UInt8} (h : a = 0 ∨ a = 0xff) (hzero : v ≠ 0) (hff : v ≠ 0xff) : a ≠ v := by
  rintro rfl
  rcases h with h | h
  · exact hzero h
  · exact hff h

/-- There is a first block without a mark, whatever the start. -/
theorem exists_planned_free (hsome : 0 < goodRank bad nandBlocks) (s : ℕ) :
    ∃ c, firstFree (nandPlan bad nand.marked block₁ count₁ block₂ count₂).marks s = some c := by
  have hlen : ∀ n, (List.replicate n (0 : UInt8)).length = n := fun n => List.length_replicate
  obtain ⟨r₁, hr₁⟩ := call_returns hsome nand block₁ (List.replicate count₁ 0)
  obtain ⟨r₂, hr₂⟩ := call_returns hsome r₁.nand block₂ (List.replicate count₂ 0)
  obtain ⟨-, hw₂, hmarks⟩ := planned hr₁ hr₂
  rw [hlen, hlen] at hmarks
  obtain ⟨b, hb, hfree⟩ := hw₂.exists_free hsome
  rw [hmarks] at hfree
  exact exists_firstFree hb hfree

/-- The read of the first range begins where its write began. -/
theorem begins_first (hsome : 0 < goodRank bad nandBlocks)
    (hkeeps : KeepsAll bad nand block₁ count₁ block₂ count₂)
    (hfew₁ : chunkCount count₁ ≤ goodRank bad nandBlocks)
    (hfew₂ : chunkCount count₂ ≤ goodRank bad nandBlocks) (hcount : 0 < count₁) :
    firstFree (nandPlan bad nand.marked block₁ count₁ block₂ count₂).marks
        (getAddrJumpBadblocks (nandPlan bad nand.marked block₁ count₁ block₂ count₂).marks block₁) =
      firstFree bad (nandPlan bad nand.marked block₁ count₁ block₂ count₂).start₁ := by
  by_contra hne
  obtain ⟨c, hc⟩ := exists_planned_free hsome
    (getAddrJumpBadblocks (nandPlan bad nand.marked block₁ count₁ block₂ count₂).marks block₁)
  obtain ⟨v, hzero, hff, hold⟩ := exists_marker (nand.data c 0)
  have hlen₁ : (marker v count₁).length = count₁ := length_marker hcount
  have hlen₂ : (List.replicate count₂ (0 : UInt8)).length = count₂ := List.length_replicate
  obtain ⟨r₁, r₂, hr₁, hr₂, -, hread, -⟩ := hkeeps _ _ hlen₁ hlen₂
  obtain ⟨hw₁, hw₂, hmarks⟩ := planned hr₁ hr₂
  rw [hlen₁, hlen₂] at hw₁ hw₂ hmarks
  rw [hlen₁] at hread
  have hbyte : r₂.nand.data c 0 = v := byte_of_marker hcount (by rw [hmarks]; exact hc) hread
  rcases data_cases hw₁ hw₂ (by rwa [hlen₁]) (by rwa [hlen₂]) c with
    ⟨z, -, -, -, hdata⟩ | ⟨z, hwalk, hgood, rfl, hdata⟩ | hdata
  · exact filler_ne (getD_replicate_zero _ _) hzero hff (hdata.symm.trans hbyte)
  · -- the byte in front is in another block
    have hother := getD_marker_of_walk (v := v) (n := count₁) hwalk hgood fun h =>
      hne (hc.trans h.symm)
    exact filler_ne hother hzero hff (hdata.symm.trans hbyte)
  · exact hold (hbyte.symm.trans hdata)

/-- So does that of the second. -/
theorem begins_second (hsome : 0 < goodRank bad nandBlocks)
    (hkeeps : KeepsAll bad nand block₁ count₁ block₂ count₂)
    (hfew₁ : chunkCount count₁ ≤ goodRank bad nandBlocks)
    (hfew₂ : chunkCount count₂ ≤ goodRank bad nandBlocks) (hcount : 0 < count₂) :
    firstFree (nandPlan bad nand.marked block₁ count₁ block₂ count₂).marks
        (getAddrJumpBadblocks (nandPlan bad nand.marked block₁ count₁ block₂ count₂).marks block₂) =
      firstFree bad (nandPlan bad nand.marked block₁ count₁ block₂ count₂).start₂ := by
  by_contra hne
  obtain ⟨c, hc⟩ := exists_planned_free hsome
    (getAddrJumpBadblocks (nandPlan bad nand.marked block₁ count₁ block₂ count₂).marks block₂)
  obtain ⟨v, hzero, hff, hold⟩ := exists_marker (nand.data c 0)
  have hlen₁ : (List.replicate count₁ (0 : UInt8)).length = count₁ := List.length_replicate
  have hlen₂ : (marker v count₂).length = count₂ := length_marker hcount
  obtain ⟨r₁, r₂, hr₁, hr₂, -, -, hread⟩ := hkeeps _ _ hlen₁ hlen₂
  obtain ⟨hw₁, hw₂, hmarks⟩ := planned hr₁ hr₂
  rw [hlen₁, hlen₂] at hw₁ hw₂ hmarks
  rw [hlen₂] at hread
  have hbyte : r₂.nand.data c 0 = v := byte_of_marker hcount (by rw [hmarks]; exact hc) hread
  rcases data_cases hw₁ hw₂ (by rwa [hlen₁]) (by rwa [hlen₂]) c with
    ⟨z, hwalk, hgood, rfl, hdata⟩ | ⟨z, -, -, -, hdata⟩ | hdata
  · -- the byte in front is in another block
    have hother := getD_marker_of_walk (v := v) (n := count₂) hwalk hgood fun h =>
      hne (hc.trans h.symm)
    exact filler_ne hother hzero hff (hdata.symm.trans hbyte)
  · exact filler_ne (getD_replicate_zero _ _) hzero hff (hdata.symm.trans hbyte)
  · exact hold (hbyte.symm.trans hdata)

/-- All data is kept when the ranges are apart. -/
theorem RangesApart.keepsBoth
    (h : RangesApart bad (nandPlan bad nand.marked block₁ src₁.length block₂ src₂.length) block₁
      src₁.length block₂ src₂.length) : KeepsBoth bad nand block₁ src₁ block₂ src₂ := by
  have hsome := h.some_good
  obtain ⟨r₁, hr₁⟩ := call_returns hsome nand block₁ src₁
  obtain ⟨r₂, hr₂⟩ := call_returns hsome r₁.nand block₂ src₂
  obtain ⟨hw₁, hw₂, hmarks⟩ := planned hr₁ hr₂
  have hapart := (apart_iff hsome hw₁ hw₂).mpr h.apart
  have hfew : src₁ ≠ [] ∨ src₂ ≠ [] →
      chunkCount src₁.length ≤ goodRank bad nandBlocks ∧
        chunkCount src₂.length ≤ goodRank bad nandBlocks := by
    intro hsrc
    rcases h.apart with ⟨hzero₁, hzero₂⟩ | ⟨hgap₁, hgap₂⟩
    · rw [List.length_eq_zero_iff] at hzero₁ hzero₂
      exact absurd hsrc (by simp [hzero₁, hzero₂])
    · exact ⟨gap_few hsome hgap₁, gap_few hsome hgap₂⟩
  have hempty : ∀ block, nandreadCheckBadblock r₂.nand block 0 = some [] := by
    intro block
    obtain ⟨b, hb, hfree⟩ := hw₂.exists_free hsome
    obtain ⟨c, hc⟩ := exists_firstFree (s := getAddrJumpBadblocks r₂.nand.marked block) hb hfree
    unfold nandreadCheckBadblock
    rw [← start_mod]
    exact read_empty hc
  refine ⟨r₁, r₂, hr₁, hr₂, hapart, ?_, ?_⟩
  · by_cases hsrc : src₁ = []
    · rw [hsrc]
      exact hempty block₁
    · have hbegins := h.begins₁ (List.length_pos_iff.mpr hsrc)
      rw [← hmarks] at hbegins
      unfold nandreadCheckBadblock
      rw [← start_mod]
      apply read_back hsome hsrc hbegins
      · -- the second call agrees on what is bad
        intro y hy
        rw [hw₂.marked, hw₁.marked, if_pos ((hw₁.touched _).mpr ⟨y, hy, rfl⟩), ite_self]
      · -- and does not come to the blocks of the data
        intro y hy hgood i hi
        have hheld : y % nandBlocks ∈ r₁.held := (hw₁.held _).mpr ⟨hsrc, y, hy, hgood, rfl⟩
        rw [hw₂.other _ (Or.inl fun hmem => hapart.2 _ hmem hheld)]
        exact hw₁.data (hfew (Or.inl hsrc)).1 y hy hgood i hi
  · by_cases hsrc : src₂ = []
    · rw [hsrc]
      exact hempty block₂
    · have hbegins := h.begins₂ (List.length_pos_iff.mpr hsrc)
      rw [← hmarks] at hbegins
      unfold nandreadCheckBadblock
      rw [← start_mod]
      apply read_back hsome hsrc hbegins
      · intro y hy
        rw [hw₂.marked, if_pos ((hw₂.touched _).mpr ⟨y, hy, rfl⟩)]
      · exact hw₂.data (hfew (Or.inr hsrc)).2

/-- **Two ranges of a flash.**  For every set of bad blocks, every flash and any two calls: all data
    of both is kept apart and reads back exactly when the ranges are apart among the good blocks and
    each read begins where its write did. -/
theorem nandRanges_exact (bad : ℕ → Bool) (nand : Nand) (block₁ count₁ block₂ count₂ : ℕ) :
    KeepsAll bad nand block₁ count₁ block₂ count₂ ↔
      RangesApart bad (nandPlan bad nand.marked block₁ count₁ block₂ count₂) block₁ count₁ block₂
        count₂ := by
  constructor
  · intro hkeeps
    have hlen : ∀ n, (List.replicate n (0 : UInt8)).length = n := fun n => List.length_replicate
    obtain ⟨r₁, r₂, hr₁, hr₂, hapart, -, -⟩ := hkeeps _ _ (hlen count₁) (hlen count₂)
    have hsome : 0 < goodRank bad nandBlocks := by
      by_contra hnone
      -- without a good block the first call goes on for ever
      have hall : ∀ b < nandBlocks, bad b = true := by
        intro b hb
        have hcount := Nat.count_iff_forall_not.mp (Nat.eq_zero_of_not_pos hnone) b hb
        simpa [Nat.mod_eq_of_lt hb] using hcount
      rw [nandwriteSetBadblock, ← start_mod, nandWriteLoop_of_all_bad hall] at hr₁
      simp at hr₁
    obtain ⟨hw₁, hw₂, -⟩ := planned hr₁ hr₂
    have hgaps := (apart_iff hsome hw₁ hw₂).mp hapart
    rw [hlen, hlen] at hgaps
    have hfew : count₁ ≠ 0 ∨ count₂ ≠ 0 →
        chunkCount count₁ ≤ goodRank bad nandBlocks ∧
          chunkCount count₂ ≤ goodRank bad nandBlocks := by
      intro hcount
      rcases hgaps with ⟨hzero₁, hzero₂⟩ | ⟨hgap₁, hgap₂⟩
      · omega
      · exact ⟨gap_few hsome hgap₁, gap_few hsome hgap₂⟩
    refine ⟨hsome, hgaps, fun hcount => ?_, fun hcount => ?_⟩
    · obtain ⟨hfew₁, hfew₂⟩ := hfew (by omega)
      exact begins_first hsome hkeeps hfew₁ hfew₂ hcount
    · obtain ⟨hfew₁, hfew₂⟩ := hfew (by omega)
      exact begins_second hsome hkeeps hfew₁ hfew₂ hcount
  · rintro h src₁ src₂ rfl rfl
    exact h.keepsBoth

/-- Blocks 0 and 1 are bad: what is written to block 0 and what is written to block 1 goes to
    block 2. -/
theorem nandRanges_collide :
    ¬ KeepsBoth (fun b => decide (b < 2)) ⟨fun _ _ => 0xff, fun _ => false⟩ 0
      (List.replicate nandBlockSize 1) 1 (List.replicate nandBlockSize 2) := by
  rintro ⟨r₁, r₂, hr₁, hr₂, hapart, -, -⟩
  obtain ⟨hw₁, hw₂, -⟩ := planned hr₁ hr₂
  rw [List.length_replicate, List.length_replicate] at hw₁ hw₂
  have hsome : 0 < goodRank (fun b => decide (b < 2)) nandBlocks := by
    have hlt : goodRank (fun b => decide (b < 2)) 2 < goodRank (fun b => decide (b < 2)) nandBlocks :=
      rank_lt (by decide) (by decide)
    omega
  have hstart : (nandPlan (fun b => decide (b < 2)) (fun _ => false) 0 nandBlockSize 1
      nandBlockSize).start₂ = 2 := by decide
  rw [hstart] at hw₂
  have hgaps := (apart_iff hsome hw₁ hw₂).mp hapart
  rw [List.length_replicate, List.length_replicate] at hgaps
  have hrank : goodRank (fun b => decide (b < 2)) 2 = 0 := by decide
  have hrank₁ : goodRank (fun b => decide (b < 2)) (nandPlan (fun b => decide (b < 2))
      (fun _ => false) 0 nandBlockSize 1 nandBlockSize).start₁ = 0 := by decide
  have hgap : ∀ g, gap g 0 0 = 0 := by simp [gap]
  rw [hrank, hrank₁, hgap] at hgaps
  rcases hgaps with ⟨hzero, -⟩ | ⟨hle, -⟩
  · simp [nandBlockSize] at hzero
  · simp [chunkCount] at hle

end Pmon.Fs
