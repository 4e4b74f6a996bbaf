import Pmon.Lib.WordMem
import Pmon.Lib.Words

/-!
# Files in extents

`ext2_read_file1` of `pmon/fs/ext2fs.c`.  Of the file-scope variables it uses `sb_block_size` and
`start_sec`; the root of the tree is `inode->i_block`.  Byte positions on the device are not cut
off: a device ends before an `off_t` does.

The device is given twice, as index blocks and as file blocks are read from it, so that one tree
can be taken with whatever data; for the device itself the two are the same.
-/

namespace Pmon.Fs.Ext2

open Pmon.Lib

/-! ## §1 The device -/

/-- The file-scope variables. -/
structure Super where
  blockSize : ℕ
  startSec : ℕ

structure Device where
  nodes : Mem
  data : Mem
  /-- A read of a number of bytes from a position fails; else it gives all of them. -/
  fails : ℕ → ℕ → Bool

/-- Where a block is on the device; `START_PARTION` is `start_sec * SECTOR_SIZE`. -/
def Super.place (sb : Super) (blk : ℕ) : ℕ := blk * sb.blockSize + sb.startSec * 512

/-- An index block.  Its entries end in it. -/
def readNode (sb : Super) (dev : Device) (blk : ℕ) : Option Mem :=
  if dev.fails (sb.place blk) sb.blockSize then none else some fun a => dev.nodes (sb.place blk + a)

/-- Bytes of a file. -/
def readData (dev : Device) (offs n : ℕ) : Option (List UInt8) :=
  if dev.fails offs n then none else some (dev.data.slice offs n)

/-! ## §2 Nodes -/

/-- `EXT4_EXT_MAGIC`. -/
def extMagic : ℕ := 0xf30a

def ehMagic (hdr : Mem) : ℕ := hdr.half 0

def ehEntries (hdr : Mem) : ℕ := hdr.half 2

def ehDepth (hdr : Mem) : ℕ := hdr.half 6

/-- `idx[i].ei_block`. -/
def eiBlock (hdr : Mem) (i : ℕ) : ℕ := hdr.word (12 + 12 * i)

/-- `ei_leaf_hi` and `ei_leaf_lo`. -/
def eiLeaf (hdr : Mem) (i : ℕ) : ℕ :=
  4294967296 * hdr.half (12 + 12 * i + 8) + hdr.word (12 + 12 * i + 4)

/-- `extent[i].ee_block`. -/
def eeBlock (hdr : Mem) (i : ℕ) : ℕ := hdr.word (12 + 12 * i)

def eeLen (hdr : Mem) (i : ℕ) : ℕ := hdr.half (12 + 12 * i + 4)

/-- `ee_start_hi` and `ee_start_lo`. -/
def eeStart (hdr : Mem) (i : ℕ) : ℕ :=
  4294967296 * hdr.half (12 + 12 * i + 6) + hdr.word (12 + 12 * i + 8)

/-- The loop over the entries of a node, of which `n` are left: the index it ends at, and the key
    it looked at last. -/
def scan (key : ℕ → ℕ) (fileBlock : ℕ) : (n i nextBlock : ℕ) → ℕ × ℕ
  | 0, i, nextBlock => (i, nextBlock)
  | n + 1, i, _ => if key i ≤ fileBlock then scan key fileBlock n (i + 1) (key i) else (i, key i)

/-- `get_extent_node`: the leaf for a block of the file.  `fuel` bounds the depth. -/
def getExtentNode (sb : Super) (dev : Device) : ℕ → Mem → ℕ → Option Mem
  | 0, _, _ => none
  | fuel + 1, hdr, fileBlock =>
    if ehMagic hdr ≠ extMagic then none
    else if ehDepth hdr = 0 then some hdr
    else
      match (scan (eiBlock hdr) fileBlock (ehEntries hdr) 0 0).1 with
      | 0 => none
      | i + 1 =>
        match readNode sb dev (eiLeaf hdr i) with
        | none => none
        | some buff => getExtentNode sb dev fuel buff fileBlock

/-! ## §3 Blocks -/

/-- The block number of `read_extent_block`: -1, -2, or one of the device. -/
inductive Blk where
  | error
  | hole
  | at (blk : ℕ)
  deriving DecidableEq

/-- `if (blk >= 0) blk++`. -/
def Blk.next : Blk → Blk
  | .at blk => .at (blk + 1)
  | blk => blk

/-- `read_extent_block`, with what it makes of `*leftblks`, which is 0.  `leftblks` is counted down
    and compared with 0 only, so that it is the same as an `unsigned int`. -/
def readExtentBlock (sb : Super) (dev : Device) (fuel : ℕ) (root : Mem) (fileBlock : ℕ) :
    Blk × ℕ :=
  match getExtentNode sb dev fuel root fileBlock with
  | none => (.error, 0)
  | some leaf =>
    match scan (eeBlock leaf) fileBlock (ehEntries leaf) 0 (u32 (fileBlock + 1)) with
    | (0, nextBlock) => (.hole, u32 (nextBlock - fileBlock))
    | (i + 1, nextBlock) =>
      let rel := fileBlock - eeBlock leaf i
      if eeLen leaf i ≤ rel then (.hole, u32 (nextBlock - rel - eeBlock leaf i))
      else (.at (rel + eeStart leaf i), eeLen leaf i - rel)

/-! ## §4 Reading -/

/-- The bytes of a block, or that the device failed. -/
def blockBytes (sb : Super) (dev : Device) (blk : Blk) (skip len : ℕ) : Option (List UInt8) :=
  match blk with
  | .at blk => readData dev (sb.place blk + skip) len
  | _ => some (List.replicate len 0)

/-- The loop of `ext2_read_file1`, with `n` blocks to go: the bytes it puts into the buffer. -/
def readBlocks (sb : Super) (dev : Device) (fuel : ℕ) (root : Mem) (pos : ℕ) :
    (n i leftblks : ℕ) → Blk → (size : ℕ) → List UInt8
  | 0, _, _, _, _ => []
  | n + 1, i, leftblks, blk, size =>
    let (blk, leftblks) :=
      if leftblks = 0 then readExtentBlock sb dev fuel root i else (blk.next, leftblks)
    let leftblks := u32 (leftblks - 1)
    if blk = .error then []
    else
      let skip := if i = pos / sb.blockSize then pos % sb.blockSize else 0
      let len := if size ≤ sb.blockSize - skip then size else sb.blockSize - skip
      if len = 0 then []
      else
        match blockBytes sb dev blk skip len with
        | none => []
        | some bytes =>
          bytes ++ readBlocks sb dev fuel root pos n (i + 1) leftblks blk (size - len)

/-- `ext2_read_file1`: what it puts into the buffer; it returns their number. -/
def ext2ReadFile1 (sb : Super) (dev : Device) (fuel : ℕ) (root : Mem) (size pos : ℕ) :
    List UInt8 :=
  let blkStart := pos / sb.blockSize
  let blkEnd := u32 (pos + size + sb.blockSize - 1) / sb.blockSize
  readBlocks sb dev fuel root pos (blkEnd - blkStart) blkStart 0 .hole size

end Pmon.Fs.Ext2
