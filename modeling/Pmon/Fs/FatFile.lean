import Pmon.Fs.FatDir

/-!
# Files of a FAT volume

`fat_init`, `fat_open`, `fat_read` and `fat_lseek` of `pmon/fs/fatfs.c`, with the device of a path
found and opened and `malloc` successful.  What a buffer on the stack holds at first is a parameter
of the call.

A file position is an `off_t`; in front of a file `fat_read` copies from in front of its buffer,
which is no result here.
-/

namespace Pmon.Fs.Fat

open Pmon.Lib Pmon.Libc

/-! ## §1 The volume -/

/-- `fat_getPartition`: `PartitionStart`, where the mark of a partition table stands. -/
def fatGetPartition (partition : ℕ) (stack : Mem) (dev : FatDev) : Option ℕ × FatDev :=
  let (_, buffer, dev) := readAt 0 0 1 stack dev
  if buffer 510 ≠ 0x55 ∨ buffer 511 ≠ 0xaa then (none, dev)
  else (some (buffer.word (446 + 16 * partition + 8)), dev)

/-- What `fat_init` makes of a boot sector: `none` where it divides by 0. -/
def bpbVol (partitionStart : ℕ) (bpb : Mem) : Option FatVol :=
  let bytesPerSec := bpb.half 11
  let secPerClust := (bpb 13).toNat
  let resSectors := bpb.half 14
  let numFATs := (bpb 16).toNat
  let rootDirEnts := bpb.half 17
  let totalSectors := if bpb.half 19 ≠ 0 then bpb.half 19 else bpb.word 32
  let fatSecs := if bpb.half 22 ≠ 0 then bpb.half 22 else bpb.word 36
  if bytesPerSec = 0 ∨ secPerClust = 0 then none
  else
    let rootDirSectors := (rootDirEnts * 32 + (bytesPerSec - 1)) / bytesPerSec
    let firstRootDirSecNum := u32 (resSectors + numFATs * fatSecs : ℕ)
    let dataSectorBase := u32 (resSectors + numFATs * fatSecs + rootDirSectors : ℕ)
    let dataSectors := u32 (totalSectors - dataSectorBase)
    let countOfClusters := dataSectors / secPerClust
    some
      { fsc := some
          { partitionStart, bytesPerSec, resSectors
            -- the number only decides on the type
            countOfClusters := min countOfClusters 65525
            resSectors_lt := by
              have hlow := (bpb 14).toNat_lt
              have hhigh := (bpb 15).toNat_lt
              change (bpb 14).toNat + 256 * (bpb 15).toNat < 65536
              omega
            countOfClusters_lt := by omega }
        partitionStart, secPerClust, rootDirSectors, firstRootDirSecNum, dataSectorBase }

inductive Init where
  | fails
  | traps
  | volume (vol : FatVol)

/-- `fat_init`, as `fat_open` takes what it returns: 0, or another value; `readsector` returns 1 or
    -1, and is tested for 0. -/
def fatInit (partition : ℕ) (stack : Mem) (dev : FatDev) : Init × FatDev :=
  match fatGetPartition partition stack dev with
  | (none, dev) => (.fails, dev)
  | (some partitionStart, dev) =>
    let (_, bootsector, dev) := readAt partitionStart 0 1 stack dev
    if bootsector 0 = 0 ∧ bootsector 1 = 0 then
      -- -1: the fields of `fsc` are zeros but for the partition
      (.volume ⟨none, partitionStart, 0, 0, 0, 0⟩, dev)
    else
      match bpbVol partitionStart bootsector with
      | none => (.traps, dev)
      | some vol => (.volume vol, dev)

/-! ## §2 Opening -/

/-- A file that is open: its device, `fsc` and `posn`. -/
structure FatFile where
  bytes : Mem
  vol : FatVol
  file : FileEntry
  chain : FatChain
  posn : ℤ
  lastSector : ℤ
  lastSectorBuffer : Mem

inductive Opened where
  | file (f : FatFile)
  | fails
  | traps

/-- `fat_open`: `none` where a loop over a chain does not end in `fuel` turns. -/
def fatOpen (fuel partition : ℕ) (filename : CStr) (stack : Mem) (dirbuf : ℕ → Slot)
    (dev : FatDev) : Option (Opened × (ℕ → Slot) × FatDev) :=
  match fatInit partition stack dev with
  | (.fails, dev) => some (.fails, dirbuf, dev)
  | (.traps, dev) => some (.traps, dirbuf, dev)
  | (.volume vol, dev) =>
    match fatFindfile vol fuel filename ⟨⟨⟨fun _ => 0, -1⟩, dev⟩, fun _ => 0, dirbuf⟩ with
    | none => none
    | some (.fails _, dir) => some (.fails, dir.dirbuf, dir.io.dev)
    | some (.file file chain, dir) =>
      some (.file ⟨dev.bytes, vol, file, chain, 0, -1, fun _ => 0⟩, dir.dirbuf, dir.io.dev)

/-! ## §3 Reading -/

/-- `FAT_BUFFER_SIZE`. -/
def fatBufferSize : ℕ := 0x8000

def FatFile.sector (f : FatFile) (index : ℕ) : ℤ := getSectorIndexRead f.vol f.chain index

/-- How many sectors the large path reads at once: as many as follow each other, and at most
    `fuel + 1`. -/
def runLength (f : FatFile) : (fuel : ℕ) → (sector : ℤ) → (sectorIndex : ℕ) → ℕ
  | 0, _, _ => 1
  | fuel + 1, sector, sectorIndex =>
    if wrap32 (sector + 1) ≠ f.sector (sectorIndex + 1) then 1
    else 1 + runLength f fuel (wrap32 (sector + 1)) (sectorIndex + 1)

theorem runLength_pos (f : FatFile) (fuel : ℕ) (sector : ℤ) (sectorIndex : ℕ) :
    0 < runLength f fuel sector sectorIndex := by
  cases fuel with
  | zero => exact Nat.one_pos
  | succ fuel =>
    rw [runLength]
    split <;> omega

/-- The sectors that are read in a turn at a position. -/
def turnSectors (f : FatFile) (pos len : ℕ) : ℕ :=
  if len ≤ fatBufferSize then 1
  else runLength f (fatBufferSize / sectorSize - 1) (f.sector (pos / sectorSize)) (pos / sectorSize)

/-- `copylen`. -/
def copyLen (f : FatFile) (pos len : ℕ) : ℕ :=
  min len (sectorSize * turnSectors f pos len - pos % sectorSize)

theorem copyLen_pos (f : FatFile) (pos : ℕ) {len : ℕ} (h : len ≠ 0) : 0 < copyLen f pos len := by
  have hmod : pos % sectorSize < sectorSize := Nat.mod_lt _ (by decide)
  have hsectors : 0 < turnSectors f pos len := by
    unfold turnSectors
    split
    · exact Nat.one_pos
    · exact runLength_pos f _ _ _
  have hle : sectorSize * 1 ≤ sectorSize * turnSectors f pos len := Nat.mul_le_mul_left _ hsectors
  rw [copyLen]
  omega

/-- A sector is brought into `LastSectorBuffer`: whether that worked. -/
def loadSector (sector : ℤ) (f : FatFile) (dev : FatDev) : Bool × FatFile × FatDev :=
  if sector ≠ f.lastSector then
    match readAt f.vol.partitionStart sector 1 f.lastSectorBuffer dev with
    | (false, lastSectorBuffer, dev) => (false, { f with lastSectorBuffer }, dev)
    | (true, lastSectorBuffer, dev) =>
      (true, { f with lastSectorBuffer, lastSector := sector }, dev)
  else (true, f, dev)

/-- One turn of the loop of `fat_read`. -/
def readTurn (len : ℕ) (f : FatFile) (dev : FatDev) : Option (List UInt8) × FatFile × FatDev :=
  let pos := f.posn.toNat
  let sector := f.sector (pos / sectorSize)
  let copylen := copyLen f pos len
  if len ≤ fatBufferSize then
    match loadSector sector f dev with
    | (false, f, dev) => (none, f, dev)
    | (true, f, dev) =>
      (some (f.lastSectorBuffer.slice (pos % sectorSize) copylen),
        { f with posn := f.posn + copylen }, dev)
  else
    let i := turnSectors f pos len
    match readAt f.vol.partitionStart sector i (fun _ => 0) dev with
    | (false, _, dev) => (none, f, dev)
    | (true, dataBuf, dev) =>
      (some (dataBuf.slice (pos % sectorSize) copylen),
        { f with posn := f.posn + copylen, lastSector := wrap32 (sector + i - 1) }, dev)

/-- The loop of `fat_read`: what is in `buf`, or that a read has failed. -/
def readLoop (len : ℕ) (f : FatFile) (dev : FatDev) (buf : List UInt8) :
    Option (List UInt8) × FatFile × FatDev :=
  if len = 0 then (some buf, f, dev)
  else
    match readTurn len f dev with
    | (none, f, dev) => (none, f, dev)
    | (some bytes, f', dev) =>
      readLoop (len - copyLen f f.posn.toNat len) f' dev (buf ++ bytes)
termination_by len
decreasing_by
  have hpos := copyLen_pos f f.posn.toNat ‹¬len = 0›
  omega

/-- The bytes that a call asks for and the file has. -/
def clipLen (f : FatFile) (len : ℕ) : ℕ :=
  if f.posn + len > f.file.fileSize then (f.file.fileSize - f.posn).toNat else len

/-- `fat_read`: `none` in front of the file, and then the bytes that are read, or that -1 is
    returned. -/
def fatRead (len : ℕ) (f : FatFile) (dev : FatDev) :
    Option (Option (List UInt8) × FatFile × FatDev) :=
  if f.posn ≥ f.file.fileSize then some (none, f, dev)
  else if f.posn < 0 then none
  else
    match readLoop (clipLen f len) f dev [] with
    | (some buf, f, dev) => some (some buf, f, dev)
    | (none, f', dev) =>
      -- `origpos` is an `int`
      some (none, { f' with posn := wrap32 f.posn }, dev)

/-! ## §4 Positioning -/

/-- What an `off_t` holds of an integer. -/
def wrapOff (x : ℤ) : ℤ := x.bmod 18446744073709551616

/-- `fat_lseek`, with what it returns. -/
def fatLseek (offset : ℤ) (whence : ℕ) (f : FatFile) : ℤ × FatFile :=
  match whence with
  | 0 => (offset, { f with posn := offset })
  | 1 => (wrapOff (f.posn + offset), { f with posn := wrapOff (f.posn + offset) })
  | 2 =>
    (wrapOff (f.file.fileSize + offset), { f with posn := wrapOff (f.file.fileSize + offset) })
  | _ => (-1, f)

end Pmon.Fs.Fat
