import Pmon.Lib.WordMem
import Pmon.Libc.Strings

/-!
# Partitions

`pmon/fs/dev_part.c` and `filename_path_transform` of `pmon/fs/diskfs.c`: the disks are asked for
their primary partitions once, and a path `(dev,n)/file` is changed into one that names a file
system and a device.

A table has a slot for each entry of the MBR that is in use, without gaps.  The slot is what `n` is
looked up by, while the letter that is made of `n` stands for the entry of the MBR.
-/

namespace Pmon.Fs

open Pmon.Lib Pmon.Libc

/-! ## §1 Disks -/

/-- `FS_TYPE_EXT2` to `FS_TYPE_UNKNOWN`. -/
inductive FsType where
  | ext2
  | swap
  | fat
  | iso9660
  | ntfs
  | bsd
  | compound
  | unknown
  deriving DecidableEq

/-- A disk: its name, whether `open` works, what `read` finds at an offset (nothing where it does
    not find as many bytes as it should), and for what there is memory: the buffers, and the
    records of the entries. -/
structure DiskDevice where
  name : CStr
  opens : Bool
  read : ℕ → ℕ → Option Mem
  buffers : Bool
  room : ℕ → Bool

/-- `DiskPartitionTable`. -/
structure DiskPartitionTable where
  tag : UInt8
  id : ℕ
  secBegin : ℕ
  size : ℕ
  secEnd : ℕ
  partFstype : FsType
  deriving DecidableEq

/-- `DeviceDisk`; the slots behind `part` are NULL. -/
structure DeviceDisk where
  deviceName : CStr
  devFstype : FsType
  part : List DiskPartitionTable
  deriving DecidableEq

/-! ## §2 The table -/

/-- `SECTOR_SIZE`. -/
def mbrSectorSize : ℕ := 0x200

/-- `MAX_PARTS`. -/
def maxParts : ℕ := 8

/-- Where an entry of the MBR is. -/
def rbEntry (i : ℕ) : ℕ := 446 + 0x10 * i

def entryTag (leadbuf : Mem) (i : ℕ) : UInt8 := leadbuf (rbEntry i + 4)

/-- `get_logical_part_offset`. -/
def entryOffset (leadbuf : Mem) (i : ℕ) : ℕ := leadbuf.word (rbEntry i + 8)

/-- `get_part_size`. -/
def entrySize (leadbuf : Mem) (i : ℕ) : ℕ := leadbuf.word (rbEntry i + 12)

/-- Whether an entry of the MBR is in use. -/
def entryUsed (leadbuf : Mem) (i : ℕ) : Bool :=
  ¬(entryTag leadbuf i = 0 ∧ entryOffset leadbuf i = 0 ∧ entrySize leadbuf i = 0)

/-- The tag of an entry, corrected by what is found in the partition; nothing where a block cannot
    be read. -/
def probeTag (disk : DiskDevice) (tag : UInt8) (secOff : ℕ) : Option UInt8 :=
  (disk.read (secOff * mbrSectorSize) mbrSectorSize).bind fun partbuf =>
    if (partbuf 0 = 0xEB ∧ partbuf 2 = 0x90) ∨ partbuf 0 = 0xE9 then some 0x0B
    else
      (disk.read (secOff * mbrSectorSize + 0x400) mbrSectorSize).bind fun partbuf =>
        if partbuf 0x38 = 0x53 ∧ partbuf 0x39 = 0xEF then some 0x83 else some tag

/-- The `switch` over the tag. -/
def tagFstype (tag : UInt8) : FsType :=
  if tag = 0x83 then .ext2
  else if tag = 0x82 then .swap
  else if tag ∈ [0x04, 0x06, 0x0E, 0x1E, 0x14, 0x16, 0x0B, 0x0C, 0x1B, 0x1C] then .fat
  else if tag ∈ [0x07, 0x17, 0x86, 0x87] then .ntfs
  else if tag = 0xA5 then .bsd
  else .unknown

/-- The record of an entry. -/
def entryRecord (leadbuf : Mem) (i id : ℕ) (tag : UInt8) : DiskPartitionTable where
  tag := tag
  id := id
  secBegin := entryOffset leadbuf i
  size := entrySize leadbuf i
  secEnd := (entrySize leadbuf i + entryOffset leadbuf i) % 4294967296
  partFstype := tagFstype tag

/-- The loop over the entries: whether all blocks could be read, and the table. -/
def entriesLoop (disk : DiskDevice) (leadbuf : Mem) :
    List ℕ → ℕ → List DiskPartitionTable → Bool × List DiskPartitionTable
  | [], _, table => (true, table)
  | i :: is, id, table =>
    if entryUsed leadbuf i then
      -- without memory the number is not counted on
      if disk.room i then
        match probeTag disk (entryTag leadbuf i) (entryOffset leadbuf i) with
        | none => (false, table)
        | some tag =>
          let table := table ++ [entryRecord leadbuf i id tag]
          if maxParts ≤ table.length then (true, table)
          else entriesLoop disk leadbuf is (id + 1) table
      else entriesLoop disk leadbuf is id table
    else entriesLoop disk leadbuf is (id + 1) table

/-- The record of a disk that is one FAT file system. -/
def wholeRecord : DiskPartitionTable where
  tag := 0x0B
  id := 1
  secBegin := 0
  size := 0
  secEnd := 0
  partFstype := .fat

/-- `read_primary_part_table`: the count, and the table.  No result where the record of the second
    chance is written without memory for it. -/
def readPrimaryPartTable (disk : DiskDevice) : Option (ℤ × List DiskPartitionTable) :=
  if ¬disk.buffers then some (-1, [])
  else
    match disk.read 0 mbrSectorSize with
    | none => some (-1, [])
    | some leadbuf =>
      if leadbuf 510 ≠ 0x55 ∨ leadbuf 511 ≠ 0xaa then some (-1, [])
      else
        match entriesLoop disk leadbuf (List.range 4) 1 [] with
        | (false, table) => some (0, table)
        | (true, []) =>
          if leadbuf 0 = 0xEB ∧ leadbuf 2 = 0x90 then
            if disk.room 4 then some (1, [wholeRecord]) else none
          else some (0, [])
        | (true, table) => some (table.length, table)

/-! ## §3 The devices -/

/-- `dev_part_detect`: -1, 0 or 1. -/
def devPartDetect (disk : DiskDevice) : ℤ :=
  if ¬disk.buffers then -1
  else
    match disk.read (16 * mbrSectorSize * 4) (mbrSectorSize * 4) with
    | none => 0
    | some leadbuf =>
      if leadbuf 1 = 0x43 ∧ leadbuf 2 = 0x44 ∧ leadbuf 3 = 0x30 ∧ leadbuf 4 = 0x30 ∧
          leadbuf 5 = 0x31 then 1
      else 0

/-- `dev_fstype` of a table that is not empty. -/
def tableFstype (table : List DiskPartitionTable) : FsType :=
  match table[1]?, table[0]? with
  | some _, _ => .compound
  | none, some part => part.partFstype
  | none, none => .unknown

/-- What `_DevPartOpen` makes of a disk whose table is asked for. -/
def tableDevice (disk : DiskDevice) : Option DeviceDisk :=
  (readPrimaryPartTable disk).map fun (cnt, table) =>
    ⟨disk.name, if cnt ≤ 0 then .unknown else tableFstype table, table⟩

/-- `_DevPartOpen`, and the record that `DevicesInit` prepares for it. -/
def devPartOpen (disk : DiskDevice) : Option DeviceDisk :=
  let dev : DeviceDisk := ⟨disk.name, .unknown, []⟩
  if ascii "loopdev" <+: disk.name then some dev
  else if ¬disk.opens then some dev
  else if ascii "cd" <+: disk.name then some { dev with devFstype := .iso9660 }
  else if ascii "usb" <+: disk.name then
    match devPartDetect disk with
    | -1 => some dev
    | 1 => some { dev with devFstype := .iso9660 }
    | _ => tableDevice disk
  else tableDevice disk

/-- `DevicesInit`, for the disks that there is memory for. -/
def devicesInit (disks : List DiskDevice) : Option (List DeviceDisk) := disks.mapM devPartOpen

/-- `FindDevice`. -/
def findDevice (devices : List DeviceDisk) (deviceName : CStr) : Option DeviceDisk :=
  devices.find? fun pdev => pdev.deviceName <+: deviceName

/-! ## §4 The path -/

/-- `strchr`: the string from the first `c` on. -/
def strchr (s : CStr) (c : UInt8) : Option CStr :=
  match s.dropWhile (· != c) with
  | [] => none
  | p => some p

/-- What `filename_path_transform` does: it fails; it returns a path, with the device and the slot
    of its table that the type is taken from; or it goes through a null pointer, outside the table
    or beyond a buffer. -/
inductive Transformed where
  | fail
  | path (tname : CStr) (pdev : DeviceDisk) (slot : ℕ)
  | wild
  deriving DecidableEq

/-- `sprintf (tname, "/dev/fs/%s@%s/%s")`, where the caller's `tname` has 100 bytes. -/
def putName (fsname buff filepath : CStr) (pdev : DeviceDisk) (slot : ℕ) : Transformed :=
  let tname := ascii "/dev/fs/" ++ fsname ++ 64 :: buff ++ 47 :: filepath
  if tname.length < 100 then .path tname pdev slot else .wild

/-- The end of `filename_path_transform`, from `FindDevice` on. -/
def deviceName (devices : List DeviceDisk) (dev filepath : CStr) (id : UInt8) : Transformed :=
  match findDevice devices dev with
  | none => .fail
  | some pdev =>
    let letter := id + 49
    let buff := if letter = 0 then dev else dev ++ [letter]
    let partIndex := id.toInt8.toInt - 48
    match pdev.devFstype with
    | .iso9660 => putName (ascii "iso9660") dev filepath pdev 0
    | .fat => putName (ascii "fat") buff filepath pdev 0
    | .ext2 => putName (ascii "ext2") buff filepath pdev 0
    | .compound =>
      if 0 ≤ partIndex ∧ partIndex < maxParts then
        match pdev.part[partIndex.toNat]? with
        | none => .wild
        | some ppart =>
          match ppart.partFstype with
          | .fat => putName (ascii "fat") buff filepath pdev partIndex.toNat
          | .ext2 => putName (ascii "ext2") buff filepath pdev partIndex.toNat
          | _ => .fail
      else .wild
    | _ => .fail

/-- `filename_path_transform`. -/
def filenamePathTransform (devices : List DeviceDisk) (fname : CStr) : Transformed :=
  match strchr fname 44 with
  | none => .wild
  | some p =>
    let id := p.getD 1 0
    if fname.getD 0 0 ≠ 40 then .fail
    else
      match strchr fname 41 with
      | none => .fail
      | some p1 =>
        if p1.getD 1 0 ≠ 0 ∧ p1.getD 1 0 ≠ 47 then .fail
        else
          let dev := (fname.drop 1).take 19
          match strchr dev 44 with
          | none => .fail
          | some _ =>
            match strchr fname 47 with
            | none => .wild
            | some p =>
              let filepath := p.drop 1
              if 100 ≤ filepath.length then .wild
              else deviceName devices (dev.takeWhile (· != 44)) filepath id

end Pmon.Fs
