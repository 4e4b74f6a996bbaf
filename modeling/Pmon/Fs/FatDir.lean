import Pmon.Fs.FatChain
import Pmon.Libc.Strings

/-!
# Directories of a FAT volume

`fat_findfile`, `fat_subdirscan` and `fat_parseDirEntries` of `pmon/fs/fatfs.c`, on a device of
which every access to come may fail.  The loops over the sectors of the root directory and of a
cluster chain do the same with each sector; what differs are the sectors, and what is returned
behind the last one.  What is only printed is left out.

A path is taken as its components: `strchr` looks for the next slash each time.
-/

namespace Pmon.Fs.Fat

open Pmon.Lib Pmon.Libc

/-! ## §1 The device -/

/-- A device: what it holds, and what goes wrong at each access to come, by its position and
    length. -/
structure FatDev where
  bytes : Mem
  faults : ℕ → ℕ → ℕ → Option (List UInt8)
  /-- A record of the model: an access has failed. -/
  failed : Bool

/-- The disk at the next access. -/
def FatDev.now (dev : FatDev) : FatDisk := ⟨dev.bytes, dev.faults 0⟩

/-- The device behind an access. -/
def FatDev.after (dev : FatDev) (ok : Bool) : FatDev :=
  { dev with faults := fun i => dev.faults (i + 1), failed := dev.failed || !ok }

/-- `readsector` with the sector an `int`: in front of the device nothing is read. -/
def readAt (partitionStart : ℕ) (sector : ℤ) (count : ℕ) (buffer : Mem) (dev : FatDev) :
    Bool × Mem × FatDev :=
  let position : ℤ := partitionStart * sectorSize + sectorSize * sector
  if position < 0 then (false, buffer, dev.after false)
  else
    match dev.faults 0 position.toNat (sectorSize * count) with
    | none =>
      (true, buffer.store 0 (dev.bytes.slice position.toNat (sectorSize * count)), dev.after true)
    | some bytes => (false, buffer.store 0 bytes, dev.after false)

/-! ## §2 Chains -/

/-- What the table is read through. -/
structure FatIO where
  cache : FatCache
  dev : FatDev

instance (disk : FatDisk) (fsc : FatSc) (fatsect : ℕ) : Decidable (Readable disk fsc fatsect) :=
  inferInstanceAs (Decidable (_ = _))

instance (fsc : FatSc) (entry : ℕ) : Decidable (fsc.Straddles entry) :=
  inferInstanceAs (Decidable (_ ∧ _))

instance (disk : FatDisk) (fsc : FatSc) (c : FatCache) (entry : ℕ) :
    Decidable (SectorsRead disk fsc c entry) :=
  decidable_of_iff ((c.num ≠ fsc.sectorOf entry → Readable disk fsc (fsc.sectorOf entry)) ∧
      (fsc.Straddles entry → Readable disk fsc (fsc.sectorOf entry + 1)))
    ⟨fun h => ⟨h.1, h.2⟩, fun h => ⟨h.1, h.2⟩⟩

/-- The entry that is read for a number: the offset in the table is an `u_int32_t`. -/
def FatSc.wrapEntry (fsc : FatSc) (flag : ℕ) : ℕ :=
  match fsc.fatType with
  | .fat12 => flag
  | .fat16 => flag % 2 ^ 31
  | .fat32 => flag % 2 ^ 30

/-- `getFatEntry`; the sectors that one call reads are different ones. -/
def entryAt (fsc : FatSc) (flag : ℕ) (io : FatIO) : ℕ × FatIO :=
  let (entry, cache) := getFatEntry io.dev.now fsc flag io.cache
  let read := decide (SectorsRead io.dev.now fsc io.cache (fsc.wrapEntry flag))
  (entry, ⟨cache, io.dev.after read⟩)

/-- A loop of `fat_getChain` in at most `fuel` turns. -/
def chainLinks (fsc : FatSc) : (fuel flag : ℕ) → FatIO → Option (List ℕ × FatIO)
  | 0, _, _ => none
  | fuel + 1, flag, io =>
    let (entry, io) := entryAt fsc flag io
    if fsc.fatType.endMark ≤ entry then some ([], io)
    else (chainLinks fsc fuel entry io).map fun (links, io) => (entry :: links, io)

/-- `fat_getChain`; with no type of table an entry is 0 and so is the end mark. -/
def getChain (fsc : Option FatSc) (fuel start : ℕ) (io : FatIO) : Option (FatChain × FatIO) :=
  match fsc with
  | none => some (⟨start, [start], 1⟩, io)
  | some fsc =>
    (chainLinks fsc fuel start io).bind fun (counted, io) =>
      (chainLinks fsc fuel start io).map fun (links, io) =>
        (⟨start, start :: links, counted.length + 1⟩, io)

/-! ## §3 The volume -/

/-- What `fat_init` finds out about a volume: the fields that the table is read by, and those of
    the directories and the data. -/
structure FatVol where
  fsc : Option FatSc
  partitionStart : ℕ
  secPerClust : ℕ
  rootDirSectors : ℕ
  firstRootDirSecNum : ℕ
  dataSectorBase : ℕ

/-- The `clust`th of the entries that are counted; behind them there is -1. -/
def FatChain.entryAt (chain : FatChain) (clust : ℕ) : ℤ :=
  if clust < chain.count then chain.entries.getD clust 0 else -1

/-- The sector of a place in a cluster. -/
def FatVol.sectorOf (vol : FatVol) (entry : ℤ) (sectorIndex : ℕ) : ℤ :=
  wrap32 (vol.dataSectorBase + (entry - 2) * vol.secPerClust + sectorIndex)

/-- `getSectorIndex_read`. -/
def getSectorIndexRead (vol : FatVol) (chain : FatChain) (index : ℕ) : ℤ :=
  vol.sectorOf (chain.entryAt (index / vol.secPerClust)) (index % vol.secPerClust)

/-- `getSectorIndex`. -/
def getSectorIndex (vol : FatVol) (chain : FatChain) (index clustNum : ℕ) : ℤ :=
  let entry : ℤ :=
    if index / vol.secPerClust < chain.count then chain.entries.getD clustNum 0 else -1
  vol.sectorOf entry (index % vol.secPerClust)

/-! ## §4 Slots -/

/-- A `struct direntry` or `struct winentry`: 32 bytes. -/
abbrev Slot := List UInt8

def Slot.at (d : Slot) (i : ℕ) : UInt8 := d.getD i 0

def Slot.half (d : Slot) (i : ℕ) : ℕ := (d.at i).toNat + 256 * (d.at (i + 1)).toNat

/-- `dirAttributes`. -/
def Slot.attributes (d : Slot) : UInt8 := d.at 11

/-- `struct fat_fileentry`, without the chain. -/
structure FileEntry where
  longName : CStr
  shortName : CStr
  highClust : ℕ
  startCluster : ℕ
  fileSize : ℕ

/-- `StartCluster | (HighClust << 16)`. -/
def FileEntry.cluster (filee : FileEntry) : ℕ := filee.startCluster + 65536 * filee.highClust

def tolower (c : UInt8) : UInt8 := if isupper c then c + 32 else c

/-- Whether `strcasecmp` returns 0. -/
def strcasecmpZero (s t : CStr) : Bool := s.map tolower = t.map tolower

/-- `parseShortFilename`, as far as a terminating zero. -/
def parseShortFilename (d : Slot) : CStr :=
  let base := (d.take 8).takeWhile (· ≠ 32)
  let dot := if d.at 8 ≠ 32 then [46] else []
  let extension := ((d.drop 8).take 3).takeWhile (· ≠ 32)
  (base ++ dot ++ extension).takeWhile (· ≠ 0)

/-- The low bytes of the 13 characters of a `struct winentry`. -/
def winChars (d : Slot) : List UInt8 :=
  [1, 3, 5, 7, 9, 14, 16, 18, 20, 22, 24, 28, 30].map d.at

/-- `fat_parseDirEntries` for the slot `dirbuf[dirc]` and those in front of it. -/
def parseDirEntries (dirbuf : ℕ → Slot) (dirc : ℕ) (filee : FileEntry) : FileEntry :=
  let d := dirbuf dirc
  let chars := (List.range dirc).reverse.flatMap fun i => winChars (dirbuf i)
  { longName :=
      if dirc ≠ 0 then (chars.map fun c => if c = 10 then 95 else c).takeWhile (· ≠ 0)
      else filee.longName
    shortName := parseShortFilename d
    highClust := d.half 20
    startCluster := d.half 26
    fileSize := d.half 28 + 65536 * d.half 30 }

/-! ## §5 Scanning -/

/-- `MAX_DIRBUF`. -/
def maxDirbuf : ℕ := 10

/-- What is shared by the scans of one search: the table, `DirBuffer` and `dirbuf`. -/
structure DirState where
  io : FatIO
  dirBuffer : Mem
  dirbuf : ℕ → Slot

/-- The variables of a scan, `long_name` and `filee`. -/
structure Scan where
  dir : DirState
  longName : ℕ
  filee : FileEntry

inductive Verdict where
  | goesOn
  /-- A slot that has never been used. -/
  | unused
  | found
  deriving DecidableEq

/-- `SLOT_EMPTY`. -/
def slotEmpty : UInt8 := 0

/-- `SLOT_DELETED`. -/
def slotDeleted : UInt8 := 0xe5

/-- `ATTR_WIN95`. -/
def attrWin95 : UInt8 := 0x0f

/-- `bcopy` of a slot into `dirbuf[long_name]`. -/
def Scan.keep (s : Scan) (d : Slot) : Scan :=
  { s with dir := { s.dir with dirbuf := Function.update s.dir.dirbuf s.longName d } }

/-- One slot. -/
def scanSlot (name : CStr) (dirList : Bool) (d : Slot) (s : Scan) : Verdict × Scan :=
  if d.at 0 = slotEmpty then (.unused, s)
  else if d.at 0 = slotDeleted then (.goesOn, s)
  else if d.attributes = attrWin95 then
    (.goesOn,
      { s.keep d with
        longName := if maxDirbuf - 1 < s.longName + 1 then 0 else s.longName + 1 })
  else
    let filee := parseDirEntries (s.keep d).dir.dirbuf s.longName s.filee
    let s := { s.keep d with longName := 0, filee }
    if !dirList ∧ (strcasecmpZero name filee.shortName ∨ strcasecmpZero name filee.longName) then
      (.found, s)
    else (.goesOn, s)

/-- The slots of a sector. -/
def scanSlots (name : CStr) (dirList : Bool) : List Slot → Scan → Verdict × Scan
  | [], s => (.goesOn, s)
  | d :: ds, s =>
    match scanSlot name dirList d s with
    | (.goesOn, s) => scanSlots name dirList ds s
    | r => r

/-- The slots in `DirBuffer`. -/
def slotsIn (dirBuffer : Mem) : List Slot :=
  (List.range 16).map fun k => dirBuffer.slice (32 * k) 32

/-- The sectors of a directory; what `readsector` returns is 1 or -1, and tested for 0. -/
def scanSectors (partitionStart : ℕ) (name : CStr) (dirList : Bool) :
    List ℤ → Scan → Verdict × Scan
  | [], s => (.goesOn, s)
  | sector :: sectors, s =>
    let (_, dirBuffer, dev) := readAt partitionStart sector 1 s.dir.dirBuffer s.dir.io.dev
    let s := { s with dir := { s.dir with dirBuffer, io := { s.dir.io with dev } } }
    match scanSlots name dirList (slotsIn dirBuffer) s with
    | (.goesOn, s) => scanSectors partitionStart name dirList sectors s
    | r => r

/-! ## §6 Finding -/

/-- What `fat_findfile` returns: 1, with the entry and the chain in `fsc->file`, or another
    value. -/
inductive Search where
  | file (filee : FileEntry) (chain : FatChain)
  | fails (res : ℤ)

/-- A scan begins with no slots of a long name and a `filee` of zeros. -/
def Scan.start (dir : DirState) : Scan := ⟨dir, 0, ⟨[], [], 0, 0, 0⟩⟩

/-- The sectors of a directory that is a chain. -/
def chainSectors (vol : FatVol) (chain : FatChain) : List ℤ :=
  (List.range chain.count).flatMap fun i =>
    (List.range vol.secPerClust).map fun j => getSectorIndex vol chain j i

/-- `fat_subdirscan`, with the components of the name. -/
def fatSubdirscan (vol : FatVol) (fuel : ℕ) :
    List CStr → FatChain → DirState → Option (Search × DirState)
  | [], _, dir => some (.fails 0, dir)
  | name :: rest, chain, dir =>
    let dirList := rest.isEmpty && name.isEmpty
    match scanSectors vol.partitionStart name dirList (chainSectors vol chain) (.start dir) with
    | (.unused, s) => some (.fails (if dirList then 2 else 0), s.dir)
    | (.goesOn, s) => some (.fails 0, s.dir)
    | (.found, s) =>
      (getChain vol.fsc fuel s.filee.cluster s.dir.io).bind fun (chain, io) =>
        if rest.isEmpty then some (.file s.filee chain, { s.dir with io })
        else fatSubdirscan vol fuel rest chain { s.dir with io }

/-- The sectors that the loop over the root directory reads. -/
def rootSectors (vol : FatVol) : List ℤ :=
  (List.range (vol.rootDirSectors + 1)).map fun i => vol.firstRootDirSecNum + i

/-- The root directory in front of the data: `fat_findfile` on other volumes than FAT32. -/
def fatRootscan (vol : FatVol) (fuel : ℕ) :
    List CStr → DirState → Option (Search × DirState)
  | [], dir => some (.fails 0, dir)
  | name :: rest, dir =>
    let dirList := rest.isEmpty && name.isEmpty
    match scanSectors vol.partitionStart name dirList (rootSectors vol) (.start dir) with
    | (.unused, s) => some (.fails (if dirList then 2 else 0), s.dir)
    | (.goesOn, s) => some (.fails 2, s.dir)
    | (.found, s) =>
      (getChain vol.fsc fuel s.filee.cluster s.dir.io).bind fun (chain, io) =>
        if rest.isEmpty then some (.file s.filee chain, { s.dir with io })
        else fatSubdirscan vol fuel rest chain { s.dir with io }

/-- `fat_findfile`; a loop over a chain is taken in at most `fuel` turns. -/
def fatFindfile (vol : FatVol) (fuel : ℕ) (name : CStr) (dir : DirState) :
    Option (Search × DirState) :=
  let components := name.splitOn 47
  if vol.fsc.map FatSc.fatType = some .fat32 then
    (getChain vol.fsc fuel 2 dir.io).bind fun (chain, io) =>
      fatSubdirscan vol fuel components chain { dir with io }
  else fatRootscan vol fuel components dir

end Pmon.Fs.Fat
