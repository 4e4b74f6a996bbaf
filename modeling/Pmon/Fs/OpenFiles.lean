import Pmon.Fs.Ext2Reads
import Pmon.Fs.ExtentReads
import Pmon.Fs.FatReads
import Pmon.Fs.IsoFile

/-!
# Open files

`read` and `lseek` go to the backend of a descriptor: memory, `ext2`, `iso9660` or `fat`.  Each of
them is compared with a file that has a size, bytes and a position.

## Key results

- `ext2Call_follows`: calls on a file of an `ext2` volume, with a block map or in extents.
- `OpenFile.call_follows`: one call on any backend.
- `openFiles_interchangeable`: runs of calls, and two backends side by side.
-/

namespace Pmon.Fs

open Pmon.Lib Ext2 Fat

/-! ## §1 `ext2` -/

/-- A file in extents, on a device that works. -/
structure ExtentFile where
  sb : Super
  dev : Device
  fuel : ℕ
  depth : ℕ
  root : Mem
  leaves : List Leaf
  /-- `i_size`. -/
  size : ℕ
  works : ∀ offs n, dev.fails offs n = false
  le_blockSize : 1024 ≤ sb.blockSize
  blockSize_le : sb.blockSize ≤ 65536
  denotes : Denotes sb dev depth 0 4294967296 root leaves
  depth_lt : depth < fuel
  size_lt : size < 4294967296

/-- `the_inode`: `EXT4_EXTENTS_FL` says which way its blocks are found. -/
inductive Inode where
  | blocks (v : Ext2Vol) (f : Ext2File v)
  | extents (f : ExtentFile)

def Inode.size : Inode → ℕ
  | .blocks _ f => f.size
  | .extents f => f.size

/-- `ext2_read_file`: what it returns, and what it stores unless it fails. -/
def Inode.readFile (size pos : ℕ) : Inode → ℤ × Option (List UInt8)
  | .blocks v f => v.ext2ReadFile0 f.root size pos
  | .extents f =>
    let bytes := ext2ReadFile1 f.sb f.dev f.fuel f.root size pos
    (wrap32 bytes.length, some bytes)

/-- An open file. -/
structure Ext2Open where
  inode : Inode
  posn : ℤ

/-- `ext2_read`. -/
def ext2Read (n : ℕ) (f : Ext2Open) : FileReply × Ext2Open :=
  let size := if f.posn + n > f.inode.size then u32 (f.inode.size - f.posn) else n
  let (realSize, stored) := f.inode.readFile size (u32 f.posn)
  if f.posn + realSize > f.inode.size then
    (.bytes (wrap32 (f.inode.size - f.posn)) stored, { f with posn := f.inode.size })
  else (.bytes realSize stored, { f with posn := f.posn + realSize })

/-- `ext2_lseek`: `where` is not looked at. -/
def ext2Lseek (offset : ℤ) (_whence : ℕ) (f : Ext2Open) : FileReply × Ext2Open :=
  (.posn offset, { f with posn := offset })

def ext2Call : FileCall → Ext2Open → FileReply × Ext2Open
  | .lseek offset whence, f => ext2Lseek offset whence f
  | .read n, f => ext2Read n f

/-- What the file holds. -/
def Inode.byte : Inode → Mem
  | .blocks _ f => f.byte
  | .extents f => fileByte f.sb f.dev.data (allExtents f.leaves)

def Ext2Open.file (f : Ext2Open) : RandomFile := ⟨f.inode.size, f.inode.byte⟩

/-- The blocks of a read are found and read right. -/
def Inode.BlocksOk (pos n : ℕ) : Inode → Prop
  | .blocks v f => ∀ p, pos ≤ p → p < pos + n → f.BlockOk pos (pos + n) (p / v.sb.blockSize)
  | .extents f =>
    n = 0 ∨ pos + n + f.sb.blockSize ≤ 4294967296 ∧
      Readable f.leaves (pos / f.sb.blockSize) ((pos + n + f.sb.blockSize - 1) / f.sb.blockSize)

/-- **When a call goes right**: the place `lseek` has to go to is the offset itself; a read starts
    in the file, there are fewer than 2^31 bytes to read, and their blocks are right. -/
def Ext2Open.Meets (f : Ext2Open) : FileCall → Prop
  | .lseek offset whence => f.file.target f.posn offset whence = some offset
  | .read n => 0 ≤ f.posn ∧ f.posn ≤ f.inode.size ∧ f.file.count f.posn n < 2147483648 ∧
      f.inode.BlocksOk f.posn.toNat (f.file.count f.posn n)

theorem Inode.size_lt (i : Inode) : i.size < 4294967296 := by
  cases i with
  | blocks v f => exact f.size_lt
  | extents f => exact f.size_lt

theorem slice_eq_range' (m : Mem) (p n : ℕ) : m.slice p n = (List.range' p n).map m :=
  slice_eq_map.mpr fun _ _ => rfl

/-- `ext2_read_file` on a piece of a file whose blocks are right. -/
theorem Inode.readFile_eq {i : Inode} {pos n : ℕ} (hend : pos + n ≤ i.size)
    (hn : n < 2147483648) (h : i.BlocksOk pos n) :
    i.readFile n pos = ((n : ℤ), some (i.byte.slice pos n)) := by
  rw [slice_eq_range']
  cases i with
  | blocks v f => exact (ext2ReadFile0_eq_iff f hend).mpr ⟨hn, h⟩
  | extents f =>
    have hsize := f.size_lt
    change pos + n ≤ f.size at hend
    have hpos : pos < 4294967296 := by omega
    have hread := (ext2ReadFile1_exact f.works f.le_blockSize f.blockSize_le f.denotes f.depth_lt
      hpos (by omega)).mpr h f.dev.data
    rw [Inode.readFile, hread, length_fileBytes, wrap32_of_bounds (by omega) (by omega)]
    rfl

/-- **Calls on a file of an `ext2` volume.** -/
theorem ext2Call_follows {f : Ext2Open} {l : FileCall} (h : f.Meets l) :
    CallFollows ext2Call Ext2Open.posn Ext2Open.file f l := by
  cases l with
  | lseek offset whence =>
    refine CallFollows.of_eq (t := { f with posn := offset }) ?_ ?_ rfl
    · rw [RandomFile.answer_lseek _ h]
      rfl
    · rw [RandomFile.answer_lseek _ h]
  | read n =>
    obtain ⟨hp, hsize, hcount, hblocks⟩ := h
    have hlt := f.inode.size_lt
    have hmin : f.file.count f.posn n = min n (f.inode.size - f.posn.toNat) :=
      RandomFile.count_of_le _ hp hsize
    have hclip : (if f.posn + n > f.inode.size then u32 (f.inode.size - f.posn) else n) =
        f.file.count f.posn n := by
      split
      · exact u32_of_bounds (by omega) (by omega)
      · omega
    have hpos : u32 f.posn = f.posn.toNat := u32_of_bounds (by omega) (by omega)
    have hread := Inode.readFile_eq (by omega) hcount hblocks
    refine CallFollows.of_eq (t := { f with posn := f.posn + f.file.count f.posn n }) ?_ rfl rfl
    rw [ext2Call, ext2Read]
    dsimp only
    rw [hclip, hpos, hread]
    exact if_neg (by omega)

/-- Reads of a file with a block map, in the terms of positions that are not
    negative. -/
theorem ext2Read_blocks {v : Ext2Vol} (f : Ext2File v) (n pos : ℕ) :
    (ext2Read n ⟨.blocks v f, pos⟩).1 =
      .bytes (v.ext2Read f.root f.size n pos).1 (v.ext2Read f.root f.size n pos).2 := by
  have hpos : u32 (pos : ℤ) = pos % 4294967296 := by
    rw [u32]
    omega
  have hend : (f.size : ℤ) < pos + n ↔ f.size < pos + n := by omega
  simp only [ext2Read, Ext2Vol.ext2Read, Inode.size, Inode.readFile, hpos, gt_iff_lt, hend]
  generalize v.ext2ReadFile0 f.root _ _ = r
  by_cases hover : (f.size : ℤ) < pos + r.1
  · rw [if_pos hover, if_pos hover]
  · rw [if_neg hover, if_neg hover]

/-! ## §2 Any backend -/

/-- An open file, by its backend. -/
inductive OpenFile where
  | ram (f : RamFile)
  | ext2 (f : Ext2Open)
  | iso9660 (f : IsoFile)
  | fat (f : FatOpen)

namespace OpenFile

/-- `read` and `lseek` by way of `_file[fd].fs`. -/
def call (l : FileCall) : OpenFile → FileReply × OpenFile
  | .ram f => ((ramCall l f).1, .ram (ramCall l f).2)
  | .ext2 f => ((ext2Call l f).1, .ext2 (ext2Call l f).2)
  | .iso9660 f => ((isoCall l f).1, .iso9660 (isoCall l f).2)
  | .fat f => ((fatCall l f).1, .fat (fatCall l f).2)

/-- `posn`, or `offs` of `openfile`. -/
def posn : OpenFile → ℤ
  | .ram f => f.posn
  | .ext2 f => f.posn
  | .iso9660 f => f.offs
  | .fat f => f.posn

/-- What the file holds. -/
def file : OpenFile → RandomFile
  | .ram f => f.file
  | .ext2 f => f.file
  | .iso9660 f => f.file
  | .fat f => f.file

/-- The files of the other backends are valid by their types. -/
def Valid : OpenFile → Prop
  | .fat f => f.Valid
  | _ => True

/-- **When a call goes right**, for each backend. -/
def Meets : OpenFile → FileCall → Prop
  | .ram f => f.Meets
  | .ext2 f => f.Meets
  | .iso9660 f => f.Meets
  | .fat f => f.Meets

/-- One call on any backend. -/
theorem call_follows (s : OpenFile) (l : FileCall) (hs : s.Valid) (h : s.Meets l) :
    CallFollows call posn file s l ∧ (nextState call s l).Valid := by
  cases s with
  | ram f =>
    have hf := ramCall_follows h
    exact ⟨⟨hf.reply_eq, hf.posn_eq, hf.file_eq⟩, trivial⟩
  | ext2 f =>
    have hf := ext2Call_follows h
    exact ⟨⟨hf.reply_eq, hf.posn_eq, hf.file_eq⟩, trivial⟩
  | iso9660 f =>
    have hf := isoCall_follows h
    exact ⟨⟨hf.reply_eq, hf.posn_eq, hf.file_eq⟩, trivial⟩
  | fat f =>
    obtain ⟨hf, hvalid⟩ := fatCall_follows hs h
    exact ⟨⟨hf.reply_eq, hf.posn_eq, hf.file_eq⟩, hvalid⟩

/-- Runs of calls on any backend. -/
theorem everyStep_call {s : OpenFile} {calls : List FileCall} (hs : s.Valid)
    (h : EveryStep (nextState call) Meets s calls) :
    EveryStep (nextState call) (CallFollows call posn file) s calls :=
  everyStep_follows call_follows hs h

end OpenFile

/-- **Open files.**  Let every call of a run on an open file, of any backend, be one that goes
    right.  Then each of them moves the position and replies as the file does: `lseek` goes where it
    is told to, and `read` gives the bytes that are there and moves on by their number.  So does
    every other file that is open at the same position, whatever its backend, if it has the same
    bytes and the calls go right on it, too: the replies are the same. -/
theorem openFiles_interchangeable (s : OpenFile) (calls : List FileCall) (hs : s.Valid)
    (h : EveryStep (nextState OpenFile.call) OpenFile.Meets s calls) :
    EveryStep (nextState OpenFile.call) (CallFollows OpenFile.call OpenFile.posn OpenFile.file) s
        calls ∧
      repliesOf OpenFile.call calls s = s.file.replies calls s.posn ∧
      ∀ t : OpenFile, t.Valid → t.file = s.file → t.posn = s.posn →
        EveryStep (nextState OpenFile.call) OpenFile.Meets t calls →
        repliesOf OpenFile.call calls t = repliesOf OpenFile.call calls s := by
  have hfollows := OpenFile.everyStep_call hs h
  refine ⟨hfollows, (replies_eq hfollows).1, ?_⟩
  intro t ht hfile hposn h'
  exact replies_agree hfile hposn (OpenFile.everyStep_call ht h') hfollows

/-- A file of four bytes in memory. -/
def fourBytes : RamFile where
  base := 0x1000
  size := 4
  cphy := false
  posn := 0
  mem := fun a => UInt8.ofNat a
  phys := fun _ => 0
  size_lt := by decide
  fits := nofun

theorem openFiles_interchangeable_four :
    repliesOf OpenFile.call [.lseek 1 0, .read 2] (.ram fourBytes) =
      fourBytes.file.replies [.lseek 1 0, .read 2] 0 := by
  refine (openFiles_interchangeable (.ram fourBytes) [.lseek 1 0, .read 2] trivial ?_).2.1
  rw [everyStep_cons, everyStep_cons]
  refine ⟨?_, ⟨?_, ?_, ?_⟩, fun before call hprefix => by simp at hprefix⟩
  · intro p hp
    cases hp
    exact ⟨by decide, by decide⟩
  · decide
  · decide
  · decide

/-- A file of one byte on a disc. -/
def oneByteOnDisc : IsoFile where
  bno := 0
  dataLength := 1
  offs := 0
  disc := fun _ => 0
  discSize := 2048
  dataLength_lt := by decide
  onDisc := by decide

/-- An empty file of a FAT volume. -/
def emptyOnFat : FatOpen where
  f := ⟨fun _ => 0, ⟨none, 0, 1, 0, 0, 0⟩, ⟨[], [], 0, 0, 0⟩, ⟨0, [], 0⟩, 0, -1, fun _ => 0⟩
  dev := ⟨fun _ => 0, fun _ _ _ => none, false⟩

/-- What a reply returns. -/
def FileReply.ret : FileReply → ℤ
  | .posn p => p
  | .bytes ret _ => ret
  | .astray => 0

/-- **Each backend on its own way**: behind the end of a file in memory a read goes on through the
    memory, `lseek` of `ext2` forgets where it was, that of `iso9660` counts from the end the other
    way, and `fat` takes the end of a file for an error. -/
theorem backends_differ :
    ((repliesOf OpenFile.call [.lseek 5 0, .read 1] (.ram fourBytes)).map FileReply.ret = [5, -1] ∧
      (fourBytes.file.replies [.lseek 5 0, .read 1] 0).map FileReply.ret = [5, 0]) ∧
    ((repliesOf OpenFile.call [.lseek 1 0, .lseek 1 1] (.ext2 ⟨.blocks _ holeFile, 0⟩)).map
        FileReply.ret = [1, 1] ∧
      ((OpenFile.ext2 ⟨.blocks _ holeFile, 0⟩).file.replies [.lseek 1 0, .lseek 1 1] 0).map
        FileReply.ret = [1, 2]) ∧
    ((repliesOf OpenFile.call [.lseek (-1) 2] (.iso9660 oneByteOnDisc)).map FileReply.ret = [2] ∧
      (oneByteOnDisc.file.replies [.lseek (-1) 2] 0).map FileReply.ret = [0]) ∧
    ((repliesOf OpenFile.call [.read 1] (.fat emptyOnFat)).map FileReply.ret = [-1] ∧
      (emptyOnFat.file.replies [.read 1] 0).map FileReply.ret = [0]) :=
  ⟨⟨by decide, by decide⟩, ⟨by decide, by decide⟩, ⟨by decide, by decide⟩, ⟨by decide, by decide⟩⟩

end Pmon.Fs
