import Mathlib.Logic.Function.Basic
import Pmon.Libc.Strings

/-!
# Open files

`open` and `close` of `lib/libc`, and `filename_path_transform` of `pmon/fs/diskfs.c`, which `open`
calls for a parenthesised partition.

What the rest of the program decides is in a `World`: the file systems that are registered, with
what their `open` does, and the disks that are found.
-/

namespace Pmon.Libc

/-! ## §1 The file table -/

/-- `OPEN_MAX`. -/
def openMax : ℕ := 32

/-- What a file system's `open` does: what it returns, and what it makes of the mark of the slot it
    is called for, where it changes it. -/
structure Opened where
  ret : ℤ
  mark : Option Bool := none

/-- `FileSystem`, with the operations that are called here. -/
structure FileSystem where
  devname : CStr
  fstype : ℕ
  fsOpen : Option (ℕ → CStr → ℕ → Opened)
  fsClose : Option (ℤ → ℤ)

/-- `File`. -/
structure File where
  valid : Bool
  posn : ℕ
  fs : Option FileSystem

/-- `_file`: its slots are those from 0 to `OPEN_MAX - 1`; the other indices are what is in memory
    around them. -/
abbrev FileTable := ℤ → File

/-- A slot's mark. -/
def FileTable.mark (files : FileTable) (fd : ℤ) (valid : Bool) : FileTable :=
  Function.update files fd { files fd with valid := valid }

/-- The first slot without a mark, `OPEN_MAX` if there is none. -/
def freeSlot (files : FileTable) : ℕ :=
  (List.range openMax).findIdx fun lu : ℕ => !(files lu).valid

/-! ## §2 Partitions -/

/-- The types of a file system on a disk. -/
inductive FsType where
  | ext2
  | swap
  | fat
  | iso9660
  | ntfs
  | bsd
  | compound
  | unknown
  deriving DecidableEq

/-- `DeviceDisk`. -/
structure DeviceDisk where
  devFstype : FsType
  partFstype : ℤ → FsType

/-- What `open` finds around it.  `low` is the text at address 1, which is the name in a partition
    for a path without a slash. -/
structure World where
  systems : List FileSystem
  findDevice : CStr → Option DeviceDisk
  low : CStr

/-- The path of a file in a partition, `none` for a file system that is not supported there. -/
def partPath (buff filepath : CStr) : FsType → Option CStr
  | .fat => some (ascii "/dev/fs/fat@" ++ buff ++ ascii "/" ++ filepath)
  | .ext2 => some (ascii "/dev/fs/ext2@" ++ buff ++ ascii "/" ++ filepath)
  | _ => none

/-- `filename_path_transform`. -/
def filenamePathTransform (w : World) (fname : CStr) : Option CStr :=
  let id := ((fname.dropWhile (· != 44)).drop 1).headD 0
  if fname.head? ≠ some 40 then none
  else if 41 ∉ fname then none
  else if ((fname.dropWhile (· != 41)).drop 1).head? ∉ [none, some 47] then none
  else
    let dev := (fname.drop 1).take 19
    if 44 ∉ dev then none
    else
      let dev := dev.takeWhile (· != 44)
      let filepath := if 47 ∈ fname then (fname.dropWhile (· != 47)).drop 1 else w.low
      match w.findDevice dev with
      | none => none
      | some pdev =>
        -- 'a' + (id - '0') is a char, which ends the string where it is NUL.
        let buff :=
          if pdev.devFstype = .iso9660 then dev
          else (dev ++ [97 + (id - 48)]).takeWhile (· != 0)
        match pdev.devFstype with
        | .iso9660 => some (ascii "/dev/fs/iso9660@" ++ buff ++ ascii "/" ++ filepath)
        | .compound => partPath buff filepath (pdev.partFstype ((id.toNat : ℤ) - 48))
        | type => partPath buff filepath type

/-! ## §3 open -/

/-- `fat_support`. -/
def fatSupport (dname : CStr) : CStr :=
  if ascii "fs/fat" <+: dname then ascii "fat/disk" ++ dname.drop 6
  else if ascii "fs/ram" <+: dname then ascii "fat/ram" ++ dname.drop 6
  else dname

inductive Errno where
  | emfile
  | enoent
  deriving DecidableEq

/-- What a call leaves: the table, what it returns, and what it puts in `errno`. -/
structure OpenResult where
  files : FileTable
  ret : ℤ
  errno : Option Errno := none

/-- `Opened`. -/
def opened (files : FileTable) (lu : ℕ) (fsp : FileSystem) : OpenResult :=
  { files := Function.update files lu { valid := true, posn := 0, fs := some fsp }, ret := lu }

/-- The table after a file system's `open`. -/
def FileTable.after (files : FileTable) (lu : ℕ) (o : Opened) : FileTable :=
  match o.mark with
  | none => files
  | some valid => files.mark lu valid

/-- `__try_open`; the file systems are those that are left to look at. -/
def tryOpen (fname : CStr) (mode : ℕ) (dname : Option CStr) (lu fstype : ℕ) :
    List FileSystem → FileTable → OpenResult
  | [], files => { files := files, ret := -1, errno := some .enoent }
  | fsp :: systems, files =>
    if dname.any fun dname => strbequ dname fsp.devname then
      match fsp.fsOpen with
      | none => opened files lu fsp
      | some fsOpen =>
        let o := fsOpen lu fname mode
        if o.ret ≠ lu then { files := files.after lu o, ret := -1 }
        else opened (files.after lu o) lu fsp
    else if fstype ≠ 0 ∧ fsp.fstype = fstype then
      match fsp.fsOpen with
      | none => tryOpen fname mode dname lu fstype systems files
      | some fsOpen =>
        let o := fsOpen lu fname mode
        if o.ret = lu then opened (files.after lu o) lu fsp
        else tryOpen fname mode dname lu fstype systems (files.after lu o)
    else tryOpen fname mode dname lu fstype systems files

/-- `FS_FILE`. -/
def fsFile : ℕ := 6

/-- `if(i==-1)_file[lu].valid = 0;`. -/
def release (lu : ℕ) (r : OpenResult) : OpenResult :=
  if r.ret = -1 then { r with files := r.files.mark lu false } else r

/-- `open`. -/
def openFile (w : World) (files : FileTable) (filename : CStr) (mode : ℕ) : OpenResult :=
  let lu := freeSlot files
  if lu = openMax then { files := files, ret := -1, errno := some .emfile }
  else
    let files := files.mark lu true
    if ascii "/dev/" <+: filename then
      let dname := fatSupport (filename.drop 5)
      release lu (tryOpen (ascii "/dev/" ++ dname) mode (some dname) lu 0 w.systems files)
    else if strpat filename (ascii "*ftp://*") then
      release lu (tryOpen filename mode (some (ascii "net")) lu 0 w.systems files)
    else if strpat filename (ascii "file://*") then
      release lu (tryOpen (filename.drop 6) mode none lu fsFile w.systems files)
    else if strpat filename (ascii "http://*") then
      release lu (tryOpen filename mode (some (ascii "net")) lu 0 w.systems files)
    else if strpat filename (ascii "nfs://*") then
      release lu (tryOpen filename mode (some (ascii "net")) lu 0 w.systems files)
    else if filename.head? = some 40 then
      -- These exits do not release the slot.
      match filenamePathTransform w filename with
      | none => { files := files, ret := -1 }
      | some tname =>
        -- Every path that the transformation gives is one of a device.
        let dname := fatSupport (tname.drop 5)
        tryOpen (ascii "/dev/" ++ dname) mode (some dname) lu 0 w.systems files
    else release lu (tryOpen filename mode (some filename) lu 0 w.systems files)

/-! ## §4 close -/

/-- `close`. -/
def closeFile (files : FileTable) (fd : ℤ) : FileTable × ℤ :=
  if fd < openMax ∧ (files fd).valid then
    (files.mark fd false,
      match (files fd).fs.bind FileSystem.fsClose with
      | some fsClose => fsClose fd
      | none => -1)
  else (files, 0)

end Pmon.Libc
