import Mathlib.Algebra.Group.Nat.Defs
import Pmon.Fs.Extents
import Pmon.Lib.Paths

/-!
# Inodes and directories

`ext2_get_inode` and `ext2_load_linux` of `pmon/fs/ext2fs.c`, once `read_super_block` has found the
volume.  What `ext2_read_file` copies is a parameter: the buffer when it is the whole file.

`directoryname` and `s` are objects of `EXT2_NAME_LEN` bytes.  A run that accesses a byte outside of
them ends in `overrun`.

## Key results

- `ext2GetInode_eq`: an inode is found in the table of its group.
- `searchFrom_eq`: the scan of a directory, in terms of its entries.
- `loadFrom_cons`: a walk, directory by directory.
-/

namespace Pmon.Fs.Ext2

open Pmon.Lib

/-! ## §1 Inodes -/

/-- A volume: the file-scope variables, the device and `ext2_read_file`.
    `sb_grpdesc_size` is 32. -/
structure Ext2Fs where
  sb : Super
  dev : Device
  inodesPerGrp : ℕ
  inodeSize : ℕ
  readFile : Mem → Option Mem
  blockSize_dvd : 32 ∣ sb.blockSize

/-- The first `n` bytes of a buffer; behind them nothing is known. -/
def cut (bh : Mem) (n : ℕ) : Mem := fun a => if a < n then bh a else 0

/-- `i_mode`. -/
def iMode (raw : Mem) : ℕ := raw.half 0

/-- `i_size`. -/
def iSize (raw : Mem) : ℕ := raw.word 4

/-- `ext2_get_inode`. -/
def Ext2Fs.ext2GetInode (fs : Ext2Fs) (ino : ℕ) : Option Mem :=
  let perBlock := fs.sb.blockSize / 32
  let blockGroup := u32 ((ino : ℤ) - 1) / fs.inodesPerGrp
  let groupDesc := blockGroup / perBlock
  let desc := blockGroup % perBlock
  match readNode fs.sb fs.dev (1024 / fs.sb.blockSize + 1 + groupDesc) with
  | none => none
  | some bh =>
    let bgInodeTable := bh.word (desc * 32 + 8)
    let offset := u32 (u32 ((ino : ℤ) - 1) % fs.inodesPerGrp * fs.inodeSize : ℕ)
    match readNode fs.sb fs.dev (u32 (bgInodeTable + offset / fs.sb.blockSize : ℕ)) with
    | none => none
    | some bh =>
      some (cut (fun a => cut bh fs.sb.blockSize (offset % fs.sb.blockSize + a)) fs.inodeSize)

/-! ## §2 Directories -/

/-- `struct ext2_dir_entry_2`. -/
structure DirEntry where
  inode : ℕ
  recLen : ℕ
  nameLen : ℕ
  fileType : ℕ
  name : List UInt8
  deriving DecidableEq

/-- The entry at a place of a directory. -/
def entryAt (bh : Mem) (o : ℕ) : DirEntry where
  inode := bh.word o
  recLen := bh.half (o + 4)
  nameLen := (bh (o + 6)).toNat
  fileType := (bh (o + 7)).toNat
  name := bh.slice (o + 8) (bh (o + 6)).toNat

/-- `EXT2_NAME_LEN`. -/
def ext2NameLen : ℕ := 255

/-- How a scan of a directory ends. -/
inductive Lookup where
  | none
  | hit (de : DirEntry)
  | overrun
  deriving DecidableEq

/-- The inner loop of `ext2_load_linux`, from a place of the directory on. -/
def searchFrom (bh : Mem) (size : ℕ) (directoryname : List UInt8) (o : ℕ) : Lookup :=
  if o < size ∧ (entryAt bh o).recLen > 0 ∧ (entryAt bh o).nameLen > 0 then
    -- `s[de->name_len] = 0`
    if ext2NameLen ≤ (entryAt bh o).nameLen then .overrun
    -- `ext2_entrycmp`
    else if directoryname = (entryAt bh o).name then .hit (entryAt bh o)
    else searchFrom bh size directoryname (o + (entryAt bh o).recLen)
  else .none
termination_by size - o

/-- What `ext2_load_linux` does: it sets `the_inode` and returns 0, it returns -1, or it runs out of
    an object. -/
inductive Loaded where
  | found (ino : ℕ) (theInode : Mem)
  | failed
  | overrun

/-- The outer loop, with the names that end in what is left of `pathname`. -/
def Ext2Fs.loadFrom (fs : Ext2Fs) : ℕ → List (List UInt8) → Loaded
  | _, [] => .overrun
  | inode, directoryname :: pathname =>
    match fs.ext2GetInode inode with
    | none => .failed
    | some raw =>
      match fs.readFile raw with
      | none => .failed
      | some bh =>
        match searchFrom bh (iSize raw) directoryname 0 with
        | .none => .failed
        | .overrun => .overrun
        | .hit de =>
          -- `EXT2_FT_REG_FILE`, `EXT2_FT_UNKNOWN`
          if de.fileType = 1 ∨ de.fileType = 0 then
            match fs.ext2GetInode de.inode with
            | none => .failed
            | some raw => .found de.inode raw
          else fs.loadFrom de.inode pathname

/-- `pathname`, after `strncpy`: the names in it that end in it. -/
def pathnameOf (path : List UInt8) : List (List UInt8) :=
  endedPieces (fun c => c == 47 || c == 0) (padTo 0 ext2NameLen path)

/-- `ext2_load_linux`; `EXT2_ROOT_INO` is 2. -/
def Ext2Fs.ext2LoadLinux (fs : Ext2Fs) (path : List UInt8) : Loaded :=
  fs.loadFrom 2 (pathnameOf path)

/-! ## §3 Where an inode is -/

variable {fs : Ext2Fs} {n o size : ℕ} {bh : Mem} {name : List UInt8} {names : List (List UInt8)}

/-- The group of an inode, and its number in the group. -/
def Ext2Fs.group (fs : Ext2Fs) (n : ℕ) : ℕ := (n - 1) / fs.inodesPerGrp

@[inherit_doc Ext2Fs.group] def Ext2Fs.index (fs : Ext2Fs) (n : ℕ) : ℕ := (n - 1) % fs.inodesPerGrp

/-- The group descriptors stand behind the super block. -/
def Ext2Fs.inodeTable (fs : Ext2Fs) (group : ℕ) : ℕ :=
  fs.dev.nodes.word (fs.sb.place (1024 / fs.sb.blockSize + 1) + 32 * group + 8)

/-- **The inode** of a number. -/
def Ext2Fs.inodeOf (fs : Ext2Fs) (n : ℕ) : Mem :=
  cut (fun a => fs.dev.nodes (fs.sb.place (fs.inodeTable (fs.group n)) +
    fs.index n * fs.inodeSize + a)) fs.inodeSize

/-- The inode is on the device, in one block, and 32 bits are enough to find it. -/
structure Ext2Fs.Located (fs : Ext2Fs) (n : ℕ) : Prop where
  pos : 0 < n
  lt : n < 2 ^ 32
  offset : fs.index n * fs.inodeSize < 2 ^ 32
  inside : fs.index n * fs.inodeSize % fs.sb.blockSize + fs.inodeSize ≤ fs.sb.blockSize
  block : fs.inodeTable (fs.group n) + fs.index n * fs.inodeSize / fs.sb.blockSize < 2 ^ 32
  descRead : fs.dev.fails (fs.sb.place (1024 / fs.sb.blockSize + 1 +
    fs.group n / (fs.sb.blockSize / 32))) fs.sb.blockSize = false
  tableRead : fs.dev.fails (fs.sb.place (fs.inodeTable (fs.group n) +
    fs.index n * fs.inodeSize / fs.sb.blockSize)) fs.sb.blockSize = false

/-- A place in a run of blocks. -/
theorem Super.place_add_div (sb : Super) (blk o : ℕ) :
    sb.place (blk + o / sb.blockSize) + o % sb.blockSize = sb.place blk + o := by
  have hdiv := Nat.div_add_mod' o sb.blockSize
  rw [Super.place, Super.place, Nat.add_mul]
  omega

/-- A word of a block, as a word of the device. -/
theorem word_shift (m : Mem) (p a : ℕ) : Mem.word (fun a => m (p + a)) a = m.word (p + a) := rfl

/-- The descriptor of a group, in its block. -/
theorem descriptor_word (fs : Ext2Fs) (g : ℕ) :
    fs.dev.nodes.word (fs.sb.place (1024 / fs.sb.blockSize + 1 + g / (fs.sb.blockSize / 32)) +
      (g % (fs.sb.blockSize / 32) * 32 + 8)) = fs.inodeTable g := by
  have hdvd := Nat.div_mul_cancel fs.blockSize_dvd
  have hdiv := Nat.div_add_mod' g (fs.sb.blockSize / 32)
  have hplace : fs.sb.place (1024 / fs.sb.blockSize + 1 + g / (fs.sb.blockSize / 32)) =
      fs.sb.place (1024 / fs.sb.blockSize + 1) +
        g / (fs.sb.blockSize / 32) * (fs.sb.blockSize / 32) * 32 := by
    rw [Nat.mul_assoc, hdvd, Super.place, Super.place, Nat.add_mul]
    omega
  have hat : fs.sb.place (1024 / fs.sb.blockSize + 1 + g / (fs.sb.blockSize / 32)) +
      (g % (fs.sb.blockSize / 32) * 32 + 8) =
      fs.sb.place (1024 / fs.sb.blockSize + 1) + 32 * g + 8 := by
    omega
  rw [hat, Ext2Fs.inodeTable]

/-- **Finding an inode** in the table of its group. -/
theorem ext2GetInode_eq (h : fs.Located n) : fs.ext2GetInode n = some (fs.inodeOf n) := by
  have hpos := h.pos
  have hlt := h.lt
  have hinside := h.inside
  have hnum : u32 ((n : ℤ) - 1) = n - 1 := u32_of_bounds (by omega) (by omega)
  have hoffset : u32 ((fs.index n * fs.inodeSize : ℕ) : ℤ) = fs.index n * fs.inodeSize :=
    u32_of_bounds rfl h.offset
  have hblock : u32 ((fs.inodeTable (fs.group n) +
      fs.index n * fs.inodeSize / fs.sb.blockSize : ℕ) : ℤ) = _ := u32_of_bounds rfl h.block
  have hdesc : readNode fs.sb fs.dev (1024 / fs.sb.blockSize + 1 +
      fs.group n / (fs.sb.blockSize / 32)) = some _ := if_neg (by simp [h.descRead])
  have htable : readNode fs.sb fs.dev (fs.inodeTable (fs.group n) +
      fs.index n * fs.inodeSize / fs.sb.blockSize) = some _ := if_neg (by simp [h.tableRead])
  rw [Ext2Fs.ext2GetInode]
  simp only [hnum, ← Ext2Fs.group.eq_def, ← Ext2Fs.index.eq_def, hdesc, word_shift,
    descriptor_word, hoffset, hblock, htable, Option.some.injEq]
  funext a
  by_cases ha : a < fs.inodeSize
  · -- the inode ends in the block that has been read
    have hin : fs.index n * fs.inodeSize % fs.sb.blockSize + a < fs.sb.blockSize := by omega
    simp only [Ext2Fs.inodeOf, cut, if_pos ha, if_pos hin, ← Nat.add_assoc, Super.place_add_div]
  · simp only [Ext2Fs.inodeOf, cut, if_neg ha]

/-! ## §4 The entries of a directory -/

/-- The entries of a directory: `rec_len` leads from each to the next. -/
def entries (bh : Mem) (size o : ℕ) : List DirEntry :=
  if o < size ∧ (entryAt bh o).recLen > 0 then
    entryAt bh o :: entries bh size (o + (entryAt bh o).recLen)
  else []
termination_by size - o

theorem entries_cons {de : DirEntry} (hat : entryAt bh o = de) (ho : o < size)
    (hrec : 0 < de.recLen) : entries bh size o = de :: entries bh size (o + de.recLen) := by
  subst hat
  rw [entries, if_pos ⟨ho, hrec⟩]

/-- The first entry of a name, unless one without a name or with the longest name comes first. -/
def firstEntry (name : List UInt8) : List DirEntry → Lookup
  | [] => .none
  | de :: des =>
    if de.nameLen = 0 then .none
    else if ext2NameLen ≤ de.nameLen then .overrun
    else if name = de.name then .hit de
    else firstEntry name des

/-- **The scan** of a directory. -/
theorem searchFrom_eq (bh : Mem) (size : ℕ) (name : List UInt8) (o : ℕ) :
    searchFrom bh size name o = firstEntry name (entries bh size o) := by
  fun_induction searchFrom bh size name o with
  | case1 o hentry hlong =>
    rw [entries, if_pos ⟨hentry.1, hentry.2.1⟩, firstEntry, if_neg (by omega), if_pos hlong]
  | case2 o hentry hlong hname =>
    rw [entries, if_pos ⟨hentry.1, hentry.2.1⟩, firstEntry, if_neg (by omega), if_neg hlong,
      if_pos hname]
  | case3 o hentry hlong hname ih =>
    rw [entries, if_pos ⟨hentry.1, hentry.2.1⟩, firstEntry, if_neg (by omega), if_neg hlong,
      if_neg hname]
    exact ih
  | case4 o hentry =>
    by_cases hrec : o < size ∧ (entryAt bh o).recLen > 0
    · rw [entries, if_pos hrec, firstEntry, if_pos (by omega)]
    · rw [entries, if_neg hrec, firstEntry]

variable {de : DirEntry} {des : List DirEntry}

theorem firstEntry_hit (h : firstEntry name des = .hit de) :
    de ∈ des ∧ de.name = name ∧ 0 < de.nameLen := by
  induction des with
  | nil => cases h
  | cons de' des ih =>
    rw [firstEntry] at h
    split at h
    · cases h
    split at h
    · cases h
    split at h
    · rename_i hzero _ hname
      cases h
      exact ⟨List.mem_cons_self, hname.symm, by omega⟩
    · obtain ⟨hmem, hname, hlen⟩ := ih h
      exact ⟨List.mem_cons_of_mem _ hmem, hname, hlen⟩

/-- The name of an entry has the length that the entry gives. -/
theorem length_name (h : de ∈ entries bh size o) : de.name.length = de.nameLen := by
  fun_induction entries bh size o with
  | case1 o hentry ih =>
    rcases List.mem_cons.mp h with rfl | hrest
    · simp [entryAt]
    · exact ih hrest
  | case2 o hentry => simp at h

/-! ## §5 A walk, directory by directory -/

/-- What is looked for in the file of an inode, taken as a directory. -/
def Ext2Fs.lookIn (fs : Ext2Fs) (n : ℕ) (name : List UInt8) : Lookup :=
  match (fs.ext2GetInode n).bind fun raw => (fs.readFile raw).map (entries · (iSize raw) 0) with
  | none => .none
  | some des => firstEntry name des

theorem loadFrom_cons : fs.loadFrom n (name :: names) =
    match fs.lookIn n name with
    | .none => .failed
    | .overrun => .overrun
    | .hit de =>
      if de.fileType ≤ 1 then
        match fs.ext2GetInode de.inode with
        | none => .failed
        | some raw => .found de.inode raw
      else fs.loadFrom de.inode names := by
  rw [Ext2Fs.loadFrom, Ext2Fs.lookIn]
  cases hraw : fs.ext2GetInode n with
  | none => rfl
  | some raw =>
    cases hread : fs.readFile raw with
    | none => simp [hread]
    | some bh =>
      simp only [Option.bind_some, hread, Option.map_some, searchFrom_eq]
      have htype (de : DirEntry) : (de.fileType = 1 ∨ de.fileType = 0) ↔ de.fileType ≤ 1 := by
        omega
      simp only [htype]

end Pmon.Fs.Ext2
