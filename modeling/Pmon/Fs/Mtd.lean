import Pmon.Lib.Words
import Mathlib.Logic.Function.Basic
import Mathlib.Tactic.Common

/-!
# Flash files

`mtdfile_write` of `pmon/fs/mtd.c`, as the operations that it asks a flash device for.  Which of
its programs succeed is a list of replies, one for each turn of its loop; a program that succeeds
has taken all of its bytes.  Erase and write sizes are powers of two, so that masks are written
as `/` and `%`.

`MTD_FLAGS_GOOD` is left out: no open sets it.
-/

namespace Pmon.Fs

open Pmon.Lib

/-! ## §1 Devices -/

/-- `struct mtd_info`: NAND, or NOR flash that is written by the byte. -/
structure Mtd where
  nand : Bool
  erasesize : ℕ
  writesize : ℕ
  size : ℕ
  erasesize_dvd : erasesize ∣ 4294967296
  writesize_dvd : writesize ∣ erasesize
  erasesize_dvd_size : erasesize ∣ size
  size_lt : size < 4294967296
  size_pos : 0 < size
  writesize_nor : nand = false → writesize = 1

/-- `(x + size - 1) & ~(size - 1)`. -/
def roundUp (size x : ℕ) : ℕ := (x + (size - 1)) % 4294967296 / size * size

/-- What a device is asked for: to erase, or to program data or a mark. -/
inductive FlashOp where
  | erase (addr len : ℕ)
  | program (addr len : ℕ)
  deriving DecidableEq

def FlashOp.addr : FlashOp → ℕ
  | .erase addr _ => addr
  | .program addr _ => addr

def FlashOp.len : FlashOp → ℕ
  | .erase _ len => len
  | .program _ len => len

/-! ## §2 Files -/

/-- The flags of a file; without any it is written as `MTD_FLAGS_BLOCK`. -/
inductive MtdMode where
  | block
  | char
  | charMark
  | raw
  deriving DecidableEq

/-- `mtdfile`, `mtdpriv` and the position. -/
structure MtdFile where
  mtd : Mtd
  partOffset : ℕ
  partSize : ℕ
  partSizeReal : ℕ
  /-- `trans_table` as far as it is filled in; NAND has one. -/
  transTable : List ℕ
  /-- The bad blocks of `bbt`. -/
  bad : ℕ → Bool
  mode : MtdMode
  openSize : ℕ
  openOffset : ℕ
  posn : ℤ
  /-- A partition starts and ends where an `unsigned int` reaches. -/
  partOffset_lt : partOffset < 4294967296
  partEnd_lt : (partOffset + partSize) % 18446744073709551616 < 4294967296

theorem Mtd.erasesize_pos (mtd : Mtd) : 0 < mtd.erasesize :=
  Nat.pos_of_dvd_of_pos mtd.erasesize_dvd (by decide)

/-- The first block of a partition. -/
def MtdFile.first (p : MtdFile) : ℕ := p.partOffset / p.mtd.erasesize

/-- The block behind a partition. -/
def MtdFile.last (p : MtdFile) : ℕ :=
  (p.partOffset + p.partSize) % 18446744073709551616 / p.mtd.erasesize

/-- The entries of `trans_table`: the good blocks. -/
def goodBlocks (p : MtdFile) : List ℕ :=
  (List.range' p.first (p.last - p.first)).filter fun good => !p.bad good

/-- The good blocks of a partition end where it ends. -/
theorem goodBlocks_end (p : MtdFile) :
    p.partOffset + (goodBlocks p).length * p.mtd.erasesize < 4294967296 := by
  have hlen : (goodBlocks p).length ≤ p.last - p.first := by
    have hfilter := List.length_filter_le (fun good => !p.bad good)
      (List.range' p.first (p.last - p.first))
    rwa [List.length_range'] at hfilter
  have hoffset := p.partOffset_lt
  rcases Nat.lt_or_ge p.first p.last with hlt | hge
  · have hlast : (p.last + 1) * p.mtd.erasesize ≤ 4294967296 := by
      obtain ⟨c, hc⟩ := p.mtd.erasesize_dvd
      have hdiv : p.last < c := by
        rw [MtdFile.last, Nat.div_lt_iff_lt_mul p.mtd.erasesize_pos, Nat.mul_comm, ← hc]
        exact p.partEnd_lt
      calc (p.last + 1) * p.mtd.erasesize ≤ c * p.mtd.erasesize := Nat.mul_le_mul_right _ hdiv
        _ = 4294967296 := by rw [Nat.mul_comm, ← hc]
    have hfirst : p.partOffset < p.first * p.mtd.erasesize + p.mtd.erasesize :=
      Nat.lt_div_mul_add p.mtd.erasesize_pos
    have hblocks := Nat.mul_le_mul_right p.mtd.erasesize hlen
    have hle := Nat.mul_le_mul_right p.mtd.erasesize (Nat.le_of_lt hlt)
    rw [Nat.sub_mul] at hblocks
    rw [Nat.add_mul, Nat.one_mul] at hlast
    omega
  · have hzero : (goodBlocks p).length = 0 := by omega
    rw [hzero]
    omega

/-- `creat_part_trans_table`: the partition shrinks to its good blocks. -/
def creatPartTransTable (p : MtdFile) : MtdFile :=
  { p with
    transTable := goodBlocks p
    partSize := (goodBlocks p).length * p.mtd.erasesize % 4294967296
    partEnd_lt := by
      have hend := goodBlocks_end p
      have hmod := Nat.mod_le ((goodBlocks p).length * p.mtd.erasesize) 4294967296
      exact Nat.lt_of_le_of_lt (Nat.mod_le _ _) (by omega) }

/-- Whether positions go through `trans_table`. -/
def MtdFile.translates (p : MtdFile) : Bool := p.mtd.nand && decide (p.mode ≠ .raw)

/-- `file_to_mtd_pos`; `junk` is what stands behind the entries of `trans_table`. -/
def fileToMtdPos (junk : ℕ → ℕ) (p : MtdFile) : ℕ :=
  if p.translates then
    let tmp := u32 (p.posn + p.openOffset)
    p.transTable.getD (tmp / p.mtd.erasesize) (junk (tmp / p.mtd.erasesize)) * p.mtd.erasesize
      % 4294967296 + tmp % p.mtd.erasesize
  else u32 (p.partOffset + p.openOffset + p.posn)

/-- `*plen` of `file_to_mtd_pos`. -/
def maxlen (p : MtdFile) : ℕ :=
  u32 (p.partOffset + p.partSize - (p.partOffset + p.openOffset + p.posn))

/-! ## §3 Writing -/

/-- The length of a program. -/
def progLen (left : ℕ) (p : MtdFile) : ℕ :=
  if p.mode = .block then
    if p.mtd.nand then p.mtd.erasesize else roundUp p.mtd.writesize (min left (maxlen p))
  else min (maxlen p) p.mtd.writesize

/-- The erase in front of a program. -/
def eraseFirst (mtd : Mtd) (start len : ℕ) : List FlashOp :=
  let addr := roundUp mtd.erasesize start
  if start ≤ addr ∧ addr < (start + len) % 4294967296 then
    [.erase addr (roundUp mtd.erasesize len)]
  else []

/-- `block_markbad`, then `mark_bad`. -/
def markBad (mtd : Mtd) (start : ℕ) : List FlashOp :=
  [.program start 1, .erase (roundUp mtd.erasesize start) mtd.erasesize,
    .program (start / mtd.erasesize * mtd.erasesize) mtd.writesize]

/-- What `block_markbad` and `creat_part_trans_table` leave after a failed program. -/
def dropBlock (start : ℕ) (p : MtdFile) : MtdFile :=
  creatPartTransTable { p with
    bad := if p.mtd.size < start then p.bad
      else Function.update p.bad (start / p.mtd.erasesize) true }

/-- The loops of `mtdfile_write`.  A failed program ends it where the device has no
    `block_markbad`. -/
def mtdWriteLoop (junk : ℕ → ℕ) : List Bool → ℕ → MtdFile → List FlashOp
  | [], _, _ => []
  | ok :: oks, left, p =>
    if left = 0 then []
    else
      let start := fileToMtdPos junk p
      let len := progLen left p
      let ops := eraseFirst p.mtd start len ++ [.program start len]
      if ok then
        if len = 0 then ops
        else if p.mode = .block then
          ops ++ mtdWriteLoop junk oks (left - len) { p with posn := p.posn + len }
        else ops
      else if p.mtd.nand then
        ops ++ markBad p.mtd start ++ mtdWriteLoop junk oks left (dropBlock start p)
      else ops

/-- `n` as the flags make it. -/
def wantLen (n : ℕ) (p : MtdFile) : ℕ := if p.mode = .block then n else p.mtd.writesize

/-- Nothing is left of `n` in the window. -/
def writesNothing (n : ℕ) (p : MtdFile) : Bool :=
  decide (wantLen n p = 0) ||
    (decide ((p.posn + wantLen n p) % 18446744073709551616 > p.openSize) &&
      decide (u32 (p.openSize - p.posn) = 0))

/-- `mtdfile_write`, as far as there are replies.  What is left to write is the length before it is
    clipped. -/
def mtdfileWrite (junk : ℕ → ℕ) (oks : List Bool) (n : ℕ) (p : MtdFile) : List FlashOp :=
  if writesNothing n p then [] else mtdWriteLoop junk oks (wantLen n p) p

end Pmon.Fs
