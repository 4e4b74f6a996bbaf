import Pmon.Fs.Holes

/-!
# Reading files with a block map

`ext2_read` cuts a read off at the end of the file.  Which reads are right is known from the blocks
of the file that they touch, in a file with holes and in one without.

## Key results

- `ext2Read_eq_iff`: `ext2_read` is right when `ext2_read_file0` is, on what is in the file.
- `Ext2File.Full.arrayOf_iff`: the blocks that are found in a file without holes.
- `ext2Read_exact`: which reads of a file are right.
- `ext2Read_full`: the same in a file without holes.
-/

namespace Pmon.Fs.Ext2

open Pmon.Lib

variable {v : Ext2Vol} {root : Mem} {addr : ℕ → ℕ} {blk fin i p p' pos q n : ℕ}
  (f : Ext2File v)

/-! ## §1 `ext2_read` -/

/-- `ext2_read`: what it returns, and what it has stored when `ext2_read_file0` does not fail.
    `pos` is the position, which a `size_t` takes over. -/
def Ext2Vol.ext2Read (v : Ext2Vol) (root : Mem) (iSize size pos : ℕ) : ℤ × Option (List UInt8) :=
  let size := if iSize < pos + size then u32 (iSize - pos) else size
  let r := v.ext2ReadFile0 root size (pos % 4294967296)
  (if (iSize : ℤ) < pos + r.1 then wrap32 (iSize - pos) else r.1, r.2)

theorem wrap32_le (n : ℕ) : wrap32 n ≤ n := by
  rcases Nat.lt_or_ge n 2147483648 with hlt | hge
  · exact le_of_eq (wrap32_of_bounds (by omega) (by omega))
  · have hbounds := wrap32_bounds n
    omega

theorem wrap32_u32 (x : ℤ) : wrap32 (u32 x) = wrap32 x := by
  rw [wrap32, wrap32, u32, Int.toNat_of_nonneg (Int.emod_nonneg _ (by decide))]
  exact Int.emod_bmod x 4294967296

theorem wrap32_eq_zero (hlt : f.size < pos) :
    wrap32 ((f.size : ℤ) - pos) = 0 ↔ 4294967296 ∣ pos - f.size := by
  have hneg : (f.size : ℤ) - pos = -((pos - f.size : ℕ) : ℤ) := by omega
  rw [wrap32, hneg, Int.bmod_def]
  split <;> omega

/-- What a read behind the end of the file returns. -/
theorem ext2Read_behind (n : ℕ) (hlt : f.size < pos) :
    (v.ext2Read f.root f.size n pos).1 = wrap32 ((f.size : ℤ) - pos) := by
  have hret : (v.ext2ReadFile0 f.root (u32 ((f.size : ℤ) - pos)) (pos % 4294967296)).1 = 0 ∨
      (v.ext2ReadFile0 f.root (u32 ((f.size : ℤ) - pos)) (pos % 4294967296)).1 =
        wrap32 ((f.size : ℤ) - pos) := by
    rw [← wrap32_u32]
    generalize u32 ((f.size : ℤ) - pos) = m
    rw [Ext2Vol.ext2ReadFile0]
    split
    · right
      dsimp only
    · left
      dsimp only
  have hsize : (if f.size < pos + n then u32 ((f.size : ℤ) - pos) else n) =
      u32 ((f.size : ℤ) - pos) := if_pos (by omega)
  rw [Ext2Vol.ext2Read, hsize]
  rcases hret with hzero | hsome
  · rw [hzero, if_pos (by omega)]
  · rw [hsome, ite_self]

/-- **`ext2_read`** is right on what is in the file where `ext2_read_file0` is; and where a `size_t`
    takes the position for the end of the file. -/
theorem ext2Read_eq_iff (n pos : ℕ) :
    v.ext2Read f.root f.size n pos =
        ((f.count n pos : ℤ), some (f.bytes pos (f.count n pos))) ↔
      (pos ≤ f.size ∧ v.ext2ReadFile0 f.root (f.count n pos) pos =
          ((f.count n pos : ℤ), some (f.bytes pos (f.count n pos)))) ∨
        f.size < pos ∧ 4294967296 ∣ pos - f.size := by
  have hsize := f.size_lt
  rcases Nat.lt_or_ge f.size pos with hbehind | hin
  · have hcount : f.count n pos = 0 := by
      rw [Ext2File.count]
      omega
    rw [or_iff_right (by omega), and_iff_right hbehind, hcount, ← wrap32_eq_zero f hbehind]
    constructor
    · intro hread
      rw [← ext2Read_behind f n hbehind, hread]
      rfl
    · intro hzero
      -- nothing is left to read
      have hu : u32 ((f.size : ℤ) - pos) = 0 := by
        rw [wrap32_eq_zero f hbehind] at hzero
        rw [u32]
        omega
      have hmod : pos % 4294967296 < 4294967296 := Nat.mod_lt _ (by decide)
      have hsize' : (if f.size < pos + n then u32 ((f.size : ℤ) - pos) else n) = 0 :=
        (if_pos (by omega)).trans hu
      have hout : (v.ext2Read f.root f.size n pos).2 = some [] := by
        rw [Ext2Vol.ext2Read, hsize', ext2ReadFile0_eq v f.root (by omega), Ext2Vol.reads,
          deliver_of_le (by omega)]
      exact Prod.ext ((ext2Read_behind f n hbehind).trans hzero) hout
  · have hcount : (if f.size < pos + n then u32 ((f.size : ℤ) - pos) else n) = f.count n pos := by
      have hu : u32 ((f.size : ℤ) - pos) = f.size - pos := u32_of_bounds (by omega) (by omega)
      rw [hu, Ext2File.count]
      split <;> omega
    have hle : pos + f.count n pos ≤ f.size := by
      rw [Ext2File.count]
      omega
    rw [or_iff_left (by omega), and_iff_right hin, Ext2Vol.ext2Read]
    rw [hcount, Nat.mod_eq_of_lt (by omega), ext2ReadFile0_eq v f.root (by omega)]
    have hwrap := wrap32_le (f.count n pos)
    cases v.reads f.root (pos + f.count n pos) pos with
    | none => simp
    | some x =>
      have hret : ¬ (f.size : ℤ) < pos + wrap32 (f.count n pos) := by omega
      dsimp only
      rw [if_neg hret]

/-! ## §2 Files without holes -/

/-- No pointer on the way to a block of the file is 0. -/
def Ext2File.Full (f : Ext2File v) : Prop :=
  ∀ q, q * v.sb.blockSize < f.size → 0 ∉ v.path f.root q

/-- The blocks of the third level under the last number of an index block, which the loop of
    `ReadFromIndexBlock2` leaves out. -/
def Ext2Vol.LeftOut (v : Ext2Vol) (q : ℕ) : Prop :=
  v.third ≤ q ∧ (q - v.third) / v.fan % v.fan = v.fan - 1

theorem path_single (root : Mem) (hlo : 12 ≤ q) (hhi : q < 12 + v.fan) :
    v.path root q = [root.words 12, v.entry (root.words 12) (q - 12)] := by
  rw [Ext2Vol.path, if_neg (by omega), if_pos hhi]

theorem path_double (root : Mem) (hi : i < v.fan) : v.path root (12 + v.fan + i * v.fan) =
    [root.words 13, v.entry (root.words 13) i, v.entry (v.entry (root.words 13) i) 0] := by
  have hle : (i + 1) * v.fan ≤ v.fan * v.fan := Nat.mul_le_mul_right _ hi
  have hsucc : (i + 1) * v.fan = i * v.fan + v.fan := Nat.succ_mul _ _
  have hthird : v.third = 12 + v.fan + v.fan * v.fan := rfl
  have hrel : 12 + v.fan + i * v.fan - (12 + v.fan) = i * v.fan := by omega
  rw [Ext2Vol.path, if_neg (by omega), if_neg (by omega), if_pos (by omega), hrel]
  dsimp only
  rw [Nat.mul_div_cancel _ (by omega), Nat.mul_mod_left]

theorem path_third (root : Mem) (h : v.third ≤ q) : v.path root q =
    [root.words 14, v.entry (root.words 14) ((q - v.third) / (v.fan * v.fan)),
      v.entry (v.entry (root.words 14) ((q - v.third) / (v.fan * v.fan)))
        ((q - v.third) / v.fan % v.fan),
      v.entry (v.entry (v.entry (root.words 14) ((q - v.third) / (v.fan * v.fan)))
        ((q - v.third) / v.fan % v.fan)) ((q - v.third) % v.fan)] := by
  have hthird : v.third = 12 + v.fan + v.fan * v.fan := rfl
  rw [Ext2Vol.path, if_neg (by omega), if_neg (by omega), if_neg (by omega)]

variable {f}

/-- An index block of the file can be read. -/
theorem Ext2File.Full.index (h : f.Full) (blk : ℕ) (hq : q * v.sb.blockSize < f.size)
    (hblk : blk ∈ v.path f.root q) : ∃ addr, v.readIndex blk = some addr := by
  have hne : blk ≠ 0 := by
    rintro rfl
    exact h q hq hblk
  rw [Ext2Vol.readIndex, if_pos (f.onDevice q hq blk hblk hne)]
  exact ⟨_, rfl⟩

/-- The index blocks of the second level. -/
theorem Ext2File.Full.double (h : f.Full) (hi : i < v.fan)
    (hq : (12 + v.fan + i * v.fan) * v.sb.blockSize < f.size) {double : ℕ → ℕ}
    (h13 : v.readIndex (f.root.words 13) = some double) :
    ∃ addr, v.readIndex (double i) = some addr := by
  have hpath := path_double f.root hi
  have hmem : v.entry (f.root.words 13) i ∈ v.path f.root (12 + v.fan + i * v.fan) := by
    rw [hpath]
    simp
  have hne : v.entry (f.root.words 13) i ≠ 0 := by
    intro hzero
    rw [hzero] at hmem
    exact h _ hq hmem
  rw [addr_eq_entry h13 hi hne]
  exact h.index _ hq hmem

/-- No file is so long that the outer loop leaves a block out. -/
theorem third_index_lt (hq : q * v.sb.blockSize < fin) (hfin : fin < 4294967296) :
    (q - v.third) / (v.fan * v.fan) < v.fan - 1 := by
  obtain ⟨hfour, hfanlo, hfanhi⟩ := fan_bounds v
  have hsquare : 256 * 256 ≤ v.fan * v.fan := Nat.mul_le_mul hfanlo hfanlo
  have hblocks : q * 1024 ≤ q * v.sb.blockSize := Nat.mul_le_mul_left _ v.le_blockSize
  have hrow : (q - v.third) / (v.fan * v.fan) ≤ (q - v.third) / (256 * 256) :=
    Nat.div_le_div_left hsquare (by decide)
  omega

/-- **In a file without holes** the code finds the number of every block but those that it leaves
    out. -/
theorem Ext2File.Full.arrayOf_iff (h : f.Full) (hq : q * v.sb.blockSize < f.size) :
    (∃ a, v.arrayOf f.root q = some a) ↔ ¬ v.LeftOut q := by
  obtain ⟨hfour, hfanlo, hfanhi⟩ := fan_bounds v
  have hsize := f.size_lt
  have hthird : v.third = 12 + v.fan + v.fan * v.fan := rfl
  -- blocks in front of one of the file are of the file
  have hbefore (q' : ℕ) (hle : q' ≤ q) : q' * v.sb.blockSize < f.size :=
    lt_of_le_of_lt (Nat.mul_le_mul_right _ hle) hq
  rw [Ext2Vol.arrayOf]
  by_cases hdirect : q < 12
  · rw [if_pos hdirect]
    refine iff_of_true ⟨_, rfl⟩ fun hleft => ?_
    have hge := hleft.1
    omega
  · rw [if_neg hdirect]
    obtain ⟨single, h12⟩ := h.index (f.root.words 12) (hbefore 12 (by omega)) (by
      rw [path_single f.root (by omega) (by omega)]
      simp)
    rw [h12, Option.bind_some]
    by_cases hsingle : q < 12 + v.fan
    · rw [if_pos hsingle]
      refine iff_of_true ⟨_, rfl⟩ fun hleft => ?_
      have hge := hleft.1
      omega
    · rw [if_neg hsingle]
      have hzero := path_double (v := v) (i := 0) f.root (by omega)
      rw [Nat.zero_mul, Nat.add_zero] at hzero
      obtain ⟨double, h13⟩ := h.index (f.root.words 13)
        (hbefore (12 + v.fan) (by omega)) (by
          rw [hzero]
          simp)
      rw [h13, Option.bind_some]
      have hread {j : ℕ} (hj : j < v.fan) (hle : 12 + v.fan + j * v.fan ≤ q) :
          ∃ addr, v.readIndex (double j) = some addr := h.double hj (hbefore _ hle) h13
      by_cases hdouble : q < v.third
      · rw [if_pos hdouble]
        have hfloor := Nat.div_mul_le_self (q - (12 + v.fan)) v.fan
        have hin : (q - (12 + v.fan)) / v.fan < v.fan := by
          rw [Nat.div_lt_iff_lt_mul (by omega)]
          omega
        generalize (q - (12 + v.fan)) / v.fan = i at hfloor hin
        dsimp only
        rw [if_pos]
        · obtain ⟨addr, haddr⟩ := hread hin (by omega)
          rw [haddr]
          refine iff_of_true ⟨_, rfl⟩ fun hleft => ?_
          have hge := hleft.1
          omega
        · intro j hj
          have hle : j * v.fan ≤ i * v.fan := Nat.mul_le_mul_right _ (by omega)
          rw [Option.isSome_iff_exists]
          exact hread (by omega) (by omega)
      · rw [if_neg hdouble, if_pos]
        · obtain ⟨triple, h14⟩ := h.index (f.root.words 14) hq (by
            rw [path_third f.root (by omega)]
            simp)
          obtain ⟨k, hk, hlo, hhi⟩ := third_split v (Nat.le_of_not_lt hdouble)
          have hkey := (third_div hk hlo hhi).2
          have hpath := path_third f.root (Nat.le_of_not_lt hdouble)
          have hfull := h q hq
          have hin := third_index_lt hq hsize
          rw [h14, Option.bind_some, Ext2Vol.LeftOut, hkey]
          rw [hkey] at hpath
          generalize (q - v.third) / (v.fan * v.fan) = i at hpath hin
          rw [hpath, List.mem_cons, List.mem_cons, List.mem_cons] at hfull
          dsimp only
          by_cases hlast : k = v.fan - 1
          · rw [if_neg (by omega)]
            exact iff_of_false (by simp) fun hnot => hnot ⟨by omega, hlast⟩
          · rw [if_pos (by omega)]
            obtain ⟨double', hdouble'⟩ := h.index (v.entry (f.root.words 14) i) hq (by
              rw [hpath]
              simp)
            obtain ⟨addr, haddr⟩ := h.index (v.entry (v.entry (f.root.words 14) i) k) hq (by
                rw [hpath]
                simp)
            rw [addr_eq_entry h14 (by omega) fun hzero => hfull (.inr (.inl hzero.symm)),
              hdouble', Option.bind_some,
              addr_eq_entry hdouble' hk fun hzero => hfull (.inr (.inr (.inl hzero.symm))), haddr]
            exact iff_of_true ⟨_, rfl⟩ fun hleft => hlast hleft.2
        · intro j hj
          have hle : (j + 1) * v.fan ≤ v.fan * v.fan := Nat.mul_le_mul_right _ hj
          have hsucc : (j + 1) * v.fan = j * v.fan + v.fan := Nat.succ_mul _ _
          rw [Option.isSome_iff_exists]
          exact hread hj (by omega)

variable (f)

/-! ## §3 Which reads are right -/

theorem count_le (hin : pos ≤ f.size) : pos + f.count n pos ≤ f.size := by
  rw [Ext2File.count]
  omega

/-- **Which reads of a file are right**, with holes or without: a read that starts in the file,
    stops before 2^31 bytes, and has only blocks that are right; and an empty one, where a `size_t`
    takes the position for the end of the file. -/
theorem ext2Read_exact (n pos : ℕ) :
    v.ext2Read f.root f.size n pos =
        ((f.count n pos : ℤ), some (f.bytes pos (f.count n pos))) ↔
      (pos ≤ f.size ∧ f.count n pos < 2147483648 ∧
          ∀ p, pos ≤ p → p < pos + f.count n pos →
            f.BlockOk pos (pos + f.count n pos) (p / v.sb.blockSize)) ∨
        f.size < pos ∧ 4294967296 ∣ pos - f.size := by
  rw [ext2Read_eq_iff]
  apply or_congr_left
  apply and_congr_right
  intro hin
  exact ext2ReadFile0_eq_iff f (count_le f hin)

/-- A block of a file without holes is right when it is not left out. -/
theorem Ext2File.Full.blockOk_iff {f : Ext2File v} (h : f.Full)
    (hq : q * v.sb.blockSize < f.size) : f.BlockOk pos fin q ↔ ¬ v.LeftOut q := by
  rw [← h.arrayOf_iff hq, Ext2File.BlockOk]
  apply exists_congr
  intro a
  apply and_iff_left
  intro hhole
  exact absurd (hhole ▸ blockPtr_mem v f.root q) (h q hq)

/-- **Which reads of a file without holes are right**: one that starts in the file, stops before
    2^31 bytes, and has no block that is left out; and an empty one, as above. -/
theorem ext2Read_full (hfull : f.Full) (n pos : ℕ) :
    v.ext2Read f.root f.size n pos =
        ((f.count n pos : ℤ), some (f.bytes pos (f.count n pos))) ↔
      (pos ≤ f.size ∧ f.count n pos < 2147483648 ∧
          ∀ p, pos ≤ p → p < pos + f.count n pos → ¬ v.LeftOut (p / v.sb.blockSize)) ∨
        f.size < pos ∧ 4294967296 ∣ pos - f.size := by
  rw [ext2Read_eq_iff]
  apply or_congr_left
  apply and_congr_right
  intro hin
  have hle := count_le (n := n) f hin
  rw [ext2ReadFile0_eq_iff f hle]
  apply and_congr_right
  intro _
  apply forall₃_congr
  intro p _ hlt
  apply hfull.blockOk_iff
  have hfloor := Nat.div_mul_le_self p v.sb.blockSize
  omega

/-! ## §4 Two disks -/

/-- A disk of 1 KB blocks, by the words of its blocks. -/
def wordDisk (w : ℕ → ℕ → ℕ) : Mem := fun a =>
  UInt8.ofNat (w (a / 1024) (a % 1024 / 4) / 256 ^ (a % 4))

theorem word_wordDisk {w : ℕ → ℕ → ℕ} (blk : ℕ) (hi : i < 256) (hw : w blk i < 4294967296) :
    (wordDisk w).word (1024 * blk + 4 * i) = w blk i := by
  have hbyte (k : ℕ) (hk : k < 4) : (wordDisk w (1024 * blk + 4 * i + k)).toNat =
      w blk i / 256 ^ k % 256 := by
    have hblk : (1024 * blk + 4 * i + k) / 1024 = blk := by omega
    have hword : (1024 * blk + 4 * i + k) % 1024 / 4 = i := by omega
    have hplace : (1024 * blk + 4 * i + k) % 4 = k := by omega
    rw [wordDisk, hblk, hword, hplace, UInt8.toNat_ofNat']
  have hzero := hbyte 0 (by omega)
  rw [Nat.add_zero] at hzero
  rw [Mem.word, hzero, hbyte 1 (by omega), hbyte 2 (by omega), hbyte 3 (by omega)]
  omega

/-- A volume of 1 KB blocks. -/
def smallVol (w : ℕ → ℕ → ℕ) : Ext2Vol where
  sb := ⟨1024, 0⟩
  bytes := wordDisk w
  devSize := 300000 * 1024
  behind _ := 0
  four_dvd := by decide
  le_blockSize := by decide
  blockSize_le := by decide
  devSize_lt := by decide

/-- A file of one block, which is a hole, on a disk where the first block is not all zeros. -/
def holeFile : Ext2File (smallVol fun _ _ => 7) where
  root _ := 0
  size := 1024
  size_lt := by decide
  onDevice := by
    intro q hq blk hblk hne
    obtain rfl : q = 0 := by
      have hbs : (smallVol fun _ _ => 7).sb.blockSize = 1024 := rfl
      rw [hbs] at hq
      omega
    obtain rfl : blk = 0 := by simpa [Ext2Vol.path, Mem.words, Mem.word] using hblk
    exact absurd rfl hne

/-- **A hole is not read as zeros** when only some of its bytes are read. -/
theorem ext2Read_hole :
    holeFile.count 1 0 = 1 ∧ holeFile.bytes 0 1 = [0] ∧
      (smallVol fun _ _ => 7).ext2Read holeFile.root holeFile.size 1 0 = (1, some [7]) := by
  refine ⟨rfl, by decide, ?_⟩
  have hpart : (smallVol fun _ _ => 7).filePart holeFile.root 1 0 1 = some [7] := by
    decide
  have hreads : (smallVol fun _ _ => 7).reads holeFile.root (0 + 1) 0 = some [7] := by
    rw [Ext2Vol.reads, deliver_of_lt (p := 1) (by decide) (by decide), hpart,
      deliver_of_le (by decide)]
    rfl
  have hread : (smallVol fun _ _ => 7).ext2ReadFile0 holeFile.root 1 0 = (1, some [7]) := by
    rw [ext2ReadFile0_eq _ _ (by decide), hreads]
    rfl
  have hsize : (if holeFile.size < 0 + 1 then u32 ((holeFile.size : ℤ) - (0 : ℕ)) else 1) = 1 :=
    if_neg (by decide)
  rw [Ext2Vol.ext2Read, hsize, Nat.zero_mod, hread]
  rfl

/-- The words of a disk with a file of 131085 blocks, which are the blocks from 100000 on: the
    index blocks are 10, 11 and those from 1000 on, and 12, 20 and those from 2000 on. -/
def fullWords (blk i : ℕ) : ℕ :=
  if blk = 10 then 100012 + i
  else if blk = 11 then 1000 + i
  else if blk = 12 then 20
  else if blk = 20 then 2000 + i
  else if blk < 2000 then 100268 + 256 * (blk - 1000) + i
  else 165804 + 256 * (blk - 2000) + i

/-- `i_block` of the file. -/
def fullRoot : Mem := wordDisk fun _ i => if i < 12 then 100000 + i else i - 2

theorem fullRoot_words {i : ℕ} (hi : i < 15) :
    fullRoot.words i = if i < 12 then 100000 + i else i - 2 := by
  have hword := word_wordDisk (w := fun _ i => if i < 12 then 100000 + i else i - 2) (i := i) 0
    (by omega) (by split <;> omega)
  rw [Nat.mul_zero, Nat.zero_add] at hword
  exact hword

theorem entry_full (hne : blk ≠ 0) (hi : i < 256) (hblk : blk < 3000) :
    (smallVol fullWords).entry blk i = fullWords blk i := by
  have hplace : (smallVol fullWords).sb.place blk = 1024 * blk := by
    simp [smallVol, Super.place, Nat.mul_comm]
  rw [Ext2Vol.entry, if_neg hne, hplace]
  apply word_wordDisk blk hi
  rw [fullWords]
  split_ifs <;> omega

/-- All pointers of the file are there. -/
theorem path_full (hq : q < 131085) :
    ∀ blk ∈ (smallVol fullWords).path fullRoot q, blk ≠ 0 ∧ blk < 300000 := by
  have hfan : (smallVol fullWords).fan = 256 := rfl
  have hthird : (smallVol fullWords).third = 65804 := rfl
  have h12 : fullRoot.words 12 = 10 := fullRoot_words (by decide)
  have h13 : fullRoot.words 13 = 11 := fullRoot_words (by decide)
  have h14 : fullRoot.words 14 = 12 := fullRoot_words (by decide)
  rw [Ext2Vol.path, hfan, hthird, h12, h13, h14]
  split_ifs with hdirect hsingle hdouble
  · rw [fullRoot_words (by omega), if_pos hdirect]
    simp
    omega
  · rw [entry_full (by decide) (by omega) (by decide), fullWords]
    simp
    omega
  · have hin : (q - (12 + 256)) / 256 < 256 := by omega
    have hsingle : fullWords 11 ((q - (12 + 256)) / 256) = 1000 + (q - (12 + 256)) / 256 := rfl
    dsimp only
    rw [entry_full (by decide) hin (by decide), hsingle,
      entry_full (by omega) (by omega) (by omega), fullWords]
    split_ifs <;> simp <;> omega
  · have hin : (q - 65804) / (256 * 256) < 256 := by omega
    have hdouble : fullWords 12 ((q - 65804) / (256 * 256)) = 20 := rfl
    have hsingle : fullWords 20 ((q - 65804) / 256 % 256) = 2000 + (q - 65804) / 256 % 256 := rfl
    dsimp only
    rw [entry_full (by decide) hin (by decide), hdouble,
      entry_full (by decide) (by omega) (by decide), hsingle,
      entry_full (by omega) (by omega) (by omega), fullWords]
    split_ifs <;> simp <;> omega

/-- A file without holes. -/
def fullFile : Ext2File (smallVol fullWords) where
  root := fullRoot
  size := 131085 * 1024
  size_lt := by decide
  onDevice := by
    intro q hq blk hblk hne
    have hbs : (smallVol fullWords).sb.blockSize = 1024 := rfl
    have hplace : (smallVol fullWords).sb.place blk = blk * 1024 := by
      simp [smallVol, Super.place]
    have hdev : (smallVol fullWords).devSize = 300000 * 1024 := rfl
    rw [hbs] at hq ⊢
    have hlt := (path_full (q := q) (by omega) blk hblk).2
    omega

theorem fullFile_full : fullFile.Full := by
  intro q hq hzero
  have hbs : (smallVol fullWords).sb.blockSize = 1024 := rfl
  have hsize : fullFile.size = 131085 * 1024 := rfl
  rw [hbs, hsize] at hq
  exact (path_full (q := q) (by omega) 0 hzero).1 rfl

/-- Its first byte is read. -/
theorem ext2Read_full_first :
    (smallVol fullWords).ext2Read fullFile.root fullFile.size 1 0 =
      ((fullFile.count 1 0 : ℤ), some (fullFile.bytes 0 (fullFile.count 1 0))) := by
  refine (ext2Read_full fullFile fullFile_full 1 0).mpr
    (.inl ⟨Nat.zero_le _, by decide, fun p _ hlt hleft => ?_⟩)
  have hcount : fullFile.count 1 0 = 1 := rfl
  obtain rfl : p = 0 := by omega
  exact absurd hleft.1 (by decide)

/-- **The last block of the file is not read**: its index block is the last one of its array. -/
theorem ext2Read_leftOut :
    fullFile.Full ∧ fullFile.count 1024 (131084 * 1024) = 1024 ∧
      (smallVol fullWords).ext2Read fullFile.root fullFile.size 1024 (131084 * 1024) =
        (0, none) := by
  have hbs : (smallVol fullWords).sb.blockSize = 1024 := rfl
  have hleft : (smallVol fullWords).LeftOut 131084 := ⟨by decide, by decide⟩
  have harray : (smallVol fullWords).arrayOf fullFile.root 131084 = none := by
    rw [← Option.not_isSome_iff_eq_none, Option.isSome_iff_exists,
      fullFile_full.arrayOf_iff (by rw [hbs]; decide)]
    exact not_not_intro hleft
  have hreads : (smallVol fullWords).reads fullFile.root (131084 * 1024 + 1024) (131084 * 1024) =
      none := by
    refine reads_none (by decide) fun p' => ?_
    rw [filePart_eq, hbs, Nat.mul_div_cancel _ (by decide), harray]
    rfl
  have hread : (smallVol fullWords).ext2ReadFile0 fullFile.root 1024 (131084 * 1024) =
      (0, none) := by
    rw [ext2ReadFile0_eq _ _ (by decide), hreads]
  have hsize : (if fullFile.size < 131084 * 1024 + 1024 then
      u32 ((fullFile.size : ℤ) - (131084 * 1024 : ℕ)) else 1024) = 1024 := if_neg (by decide)
  refine ⟨fullFile_full, by decide, ?_⟩
  have hret : ¬ (fullFile.size : ℤ) < (131084 * 1024 : ℕ) + 0 := by decide
  rw [Ext2Vol.ext2Read, hsize, Nat.mod_eq_of_lt (by decide), hread]
  dsimp only
  rw [if_neg hret]

end Pmon.Fs.Ext2
