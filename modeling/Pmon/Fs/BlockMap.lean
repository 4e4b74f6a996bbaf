import Pmon.Fs.Extents

/-!
# Files with a block map

`ReadFromIndexBlock`, `ReadFromIndexBlock2` and `ext2_read_file0` of `pmon/fs/ext2fs.c`.  The map
of a file is the array `i_block` of its inode: twelve blocks, and three that hold further numbers,
at one, two and three levels.

Positions stay below the size of the file, so that they fit a `size_t`, and allocations succeed.
-/

namespace Pmon.Fs.Ext2

open Pmon.Lib

/-! ## §1 The device -/

/-- A volume on a device that can be read up to its end. -/
structure Ext2Vol where
  sb : Super
  bytes : Mem
  devSize : ℕ
  /-- The word behind the buffer that an index block is read into. -/
  behind : ℕ → ℕ
  four_dvd : 4 ∣ sb.blockSize
  /-- `BLOCK_1KB << s_log_block_size`. -/
  le_blockSize : 1024 ≤ sb.blockSize
  blockSize_le : sb.blockSize ≤ 65536
  /-- A block number has 32 bits, and the last of them is not on the device. -/
  devSize_lt : devSize < sb.place 4294967296

/-- `devio_lseek` and `devio_read`. -/
def Ext2Vol.read (v : Ext2Vol) (offs n : ℕ) : Option (List UInt8) :=
  if offs + n ≤ v.devSize then some (v.bytes.slice offs n) else none

/-- A block that is read as an array of numbers. -/
def Ext2Vol.readIndex (v : Ext2Vol) (blk : ℕ) : Option (ℕ → ℕ) :=
  if v.sb.place blk + v.sb.blockSize ≤ v.devSize then
    some fun i =>
      if i < v.sb.blockSize / 4 then v.bytes.word (v.sb.place blk + 4 * i) else v.behind blk
  else none

/-- A read: what has been stored, unless a failed access has left something unknown; how much is
    left; and where in the file it is. -/
structure ReadState where
  out : Option (List UInt8)
  size : ℕ
  position : ℕ

/-- `*ReadBuf`, `*position` and `*size` go on. -/
def ReadState.store (st : ReadState) (bytes : List UInt8) (n : ℕ) : ReadState :=
  ⟨st.out.map (· ++ bytes), st.size - n, st.position + n⟩

/-- An access has failed. -/
def ReadState.lose (st : ReadState) : ReadState := { st with out := none }

/-! ## §2 One array -/

/-- The loop over whole blocks, and what follows it: whether 0 is returned. -/
def Ext2Vol.readBlocks (v : Ext2Vol) (addr : ℕ → ℕ) (endBlock : ℕ)
    (startBlock remainCount remainSize addrAbsoluteStart : ℕ) (st : ReadState) :
    Bool × ReadState :=
  if st.size ≠ 0 ∧ remainSize < st.size ∧ remainCount + startBlock ≤ endBlock then
    if addr (startBlock + remainCount + 1) = u32 (addr (startBlock + remainCount) + 1) then
      if remainSize + v.sb.blockSize > st.size then
        v.readBlocks addr endBlock startBlock remainCount st.size addrAbsoluteStart st
      else
        v.readBlocks addr endBlock startBlock (remainCount + 1) (remainSize + v.sb.blockSize)
          addrAbsoluteStart st
    else
      -- if not continuous, we just read one block
      let size :=
        if remainSize = 0 then (if st.size < v.sb.blockSize then st.size else v.sb.blockSize)
        else remainSize
      let count :=
        if remainSize = 0 then (if st.size < v.sb.blockSize then remainCount else 1)
        else remainCount
      let bytes :=
        if addr startBlock = 0 ∧ count = 1 then some (List.replicate size 0)
        else v.read (addrAbsoluteStart + v.sb.startSec * 512) size
      match bytes with
      | none => (false, st.lose)
      | some bytes =>
        if (st.store bytes size).position % v.sb.blockSize ≠ 0 ∧ (st.store bytes size).size ≠ 0 then
          (false, st.store bytes size)
        else
          v.readBlocks addr endBlock (startBlock + count) 0 0
            (addr (startBlock + count) * v.sb.blockSize) (st.store bytes size)
  else if st.size = 0 then (true, st)
  else if remainSize ≠ 0 then
    let size := if remainSize > st.size then st.size else remainSize
    match v.read (addrAbsoluteStart + v.sb.startSec * 512) size with
    | none => (false, st.lose)
    | some bytes => (true, st.store bytes size)
  else (true, st)
termination_by (st.size, st.size - remainSize)
decreasing_by
  -- a run grows, or it is read
  · apply Prod.Lex.right
    omega
  · have hpos := v.le_blockSize
    apply Prod.Lex.right
    omega
  · have hpos := v.le_blockSize
    apply Prod.Lex.left
    rw [ReadState.store]
    dsimp only
    split
    · split <;> omega
    · omega

/-- `ReadFromIndexBlock`. -/
def Ext2Vol.readFromIndexBlock (v : Ext2Vol) (startBlock endBlock : ℕ) (st : ReadState)
    (addr : ℕ → ℕ) : Bool × ReadState :=
  if startBlock > endBlock then (true, st)
  else
    let skip := st.position % v.sb.blockSize
    let remainSize := v.sb.blockSize - skip
    let addrAbsoluteStart := addr startBlock * v.sb.blockSize + skip
    if remainSize > st.size then
      v.readBlocks addr endBlock startBlock 0 st.size addrAbsoluteStart st
    else if remainSize = v.sb.blockSize then
      v.readBlocks addr endBlock startBlock 0 0 addrAbsoluteStart st
    else
      -- the unaligned data within a block
      match v.read (addrAbsoluteStart + v.sb.startSec * 512) remainSize with
      | none => (false, st.lose)
      | some bytes =>
        let st := st.store bytes remainSize
        v.readBlocks addr endBlock (startBlock + 1) 0 0
          (addr (startBlock + 1) * v.sb.blockSize + st.position % v.sb.blockSize) st

/-! ## §3 Arrays of arrays -/

/-- Where a level of the map leaves a read: 0 is returned, or the size is, or there is more. -/
inductive Level where
  | failed
  | done (st : ReadState)
  | more (st : ReadState)

/-- `if (re) ... if (!read_size) ...`. -/
def Level.of : Bool × ReadState → Level
  | (false, _) => .failed
  | (true, st) => if st.size = 0 then .done st else .more st

/-- The loop of `ReadFromIndexBlock2` from `i` on, with `k` turns to go; it always returns 0. -/
def Ext2Vol.readIndexBlocks2 (v : Ext2Vol) (dAddr : ℕ → ℕ) :
    (k i : ℕ) → ReadState → ReadState
  | 0, _, st => st
  | k + 1, i, st =>
    match v.readIndex (dAddr i) with
    | none => st
    | some addr =>
      let startBlock := u32 ((st.position / v.sb.blockSize : ℕ) - 12) % (v.sb.blockSize / 4)
      match v.readFromIndexBlock startBlock (v.sb.blockSize / 4 - 1) st addr with
      | (false, st) => st
      | (true, st) => if st.size = 0 then st else v.readIndexBlocks2 dAddr k (i + 1) st

/-- `ReadFromIndexBlock2`. -/
def Ext2Vol.readFromIndexBlock2 (v : Ext2Vol) (startIndex endIndex : ℕ) (st : ReadState)
    (dAddr : ℕ → ℕ) : ReadState :=
  if startIndex > endIndex then st
  else v.readIndexBlocks2 dAddr (endIndex - startIndex) startIndex st

/-- The loop over the double index block. -/
def Ext2Vol.readDouble (v : Ext2Vol) (dAddr : ℕ → ℕ) : (k i : ℕ) → ReadState → Level
  | 0, _, st => .more st
  | k + 1, i, st =>
    match v.readIndex (dAddr i) with
    | none => .failed
    | some addr =>
      let startBlock :=
        u32 ((st.position / v.sb.blockSize : ℕ) - 12 - (v.sb.blockSize / 4 * (i + 1) : ℕ))
      match Level.of (v.readFromIndexBlock startBlock (v.sb.blockSize / 4 - 1) st addr) with
      | .failed => .failed
      | .done st => .done st
      | .more st => v.readDouble dAddr k (i + 1) st

/-- The loop over the triple index block. -/
def Ext2Vol.readTriple (v : Ext2Vol) (dAddr : ℕ → ℕ) : (k i : ℕ) → ReadState → Level
  | 0, _, _ => .failed
  | k + 1, i, st =>
    match v.readIndex (dAddr i) with
    | none => .failed
    | some addr =>
      let n := v.sb.blockSize / 4
      let startBlock := u32 ((st.position / v.sb.blockSize : ℕ) - 12 - n -
        (n * v.sb.blockSize / 4 : ℕ) - (n * v.sb.blockSize / 4 * i : ℕ)) / n
      let st := v.readFromIndexBlock2 startBlock (n - 1) st addr
      if st.size = 0 then .done st else v.readTriple dAddr k (i + 1) st

/-- The four levels, one behind the other; `root` is `inode->i_block`. -/
def Ext2Vol.readLevels (v : Ext2Vol) (root : Mem) (st : ReadState) : Level :=
  let n := v.sb.blockSize / 4
  match Level.of (v.readFromIndexBlock (st.position / v.sb.blockSize) 11 st root.words) with
  | .failed => .failed
  | .done st => .done st
  | .more st =>
    match v.readIndex (root.words 12) with
    | none => .failed
    | some addr =>
      let startBlock := u32 ((st.position / v.sb.blockSize : ℕ) - 12)
      match Level.of (v.readFromIndexBlock startBlock (n - 1) st addr) with
      | .failed => .failed
      | .done st => .done st
      | .more st =>
        match v.readIndex (root.words 13) with
        | none => .failed
        | some dAddr =>
          match v.readDouble dAddr n 0 st with
          | .failed => .failed
          | .done st => .done st
          | .more st =>
            match v.readIndex (root.words 14) with
            | none => .failed
            | some dAddr =>
              let first := u32 ((st.position / v.sb.blockSize : ℕ) - 12 - n -
                (n * v.sb.blockSize / 4 : ℕ)) / (n * v.sb.blockSize / 4)
              v.readTriple dAddr (n - 1 - first) first st

/-- `ext2_read_file0`: what it returns, and what it has stored when it returns the size. -/
def Ext2Vol.ext2ReadFile0 (v : Ext2Vol) (root : Mem) (size pos : ℕ) :
    ℤ × Option (List UInt8) :=
  match v.readLevels root ⟨some [], size, pos⟩ with
  | .done st => (wrap32 size, st.out)
  | _ => (0, none)

end Pmon.Fs.Ext2
