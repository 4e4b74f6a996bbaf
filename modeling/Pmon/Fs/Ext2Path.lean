import Pmon.Fs.Ext2Dir
import Pmon.Libc.Strings

/-!
# Finding a file by its path

`ext2_load_linux` is to find the file that a path names in the directory tree of an ext2 volume.
A name is looked for among the entries of a directory that have an inode; every name but the last
is that of a directory, and the last that of a regular file.

## Key results

- `loadFrom_found_iff`, `loadFrom_failed_iff`: where a walk leads, entry by entry.
- `loads_iff_straight`: when the walk from a directory agrees with the tree.
- `ext2LoadLinux_exact`: the same for every path from the root.
-/

namespace Pmon.Fs.Ext2

open Pmon.Lib
open Pmon.Libc (ascii)

/-! ## §1 The tree -/

variable {fs : Ext2Fs} {d n n' ino : ℕ} {de : DirEntry} {name v w : List UInt8}
  {vs ws : List (List UInt8)} {raw : Mem}

/-- The entries of a directory. -/
def Ext2Fs.dirEntries (fs : Ext2Fs) (d : ℕ) : List DirEntry :=
  match fs.readFile (fs.inodeOf d) with
  | none => []
  | some bh => entries bh (iSize (fs.inodeOf d)) 0

/-- `S_ISDIR`. -/
def Ext2Fs.IsDir (fs : Ext2Fs) (n : ℕ) : Prop := iMode (fs.inodeOf n) / 4096 = 4

/-- `S_ISREG`. -/
def Ext2Fs.IsReg (fs : Ext2Fs) (n : ℕ) : Prop := iMode (fs.inodeOf n) / 4096 = 8

instance : Decidable (fs.IsDir n) := inferInstanceAs (Decidable (_ = _))

/-- A live entry of the directory gives the name to the inode. -/
def Ext2Fs.Live (fs : Ext2Fs) (d : ℕ) (name : List UInt8) (n : ℕ) : Prop :=
  ∃ de ∈ fs.dirEntries d, de.inode ≠ 0 ∧ de.name = name ∧ de.inode = n

def Ext2Fs.LiveDir (fs : Ext2Fs) (d : ℕ) (name : List UInt8) (n : ℕ) : Prop :=
  fs.Live d name n ∧ fs.IsDir n

def Ext2Fs.LiveFile (fs : Ext2Fs) (d : ℕ) (name : List UInt8) (n : ℕ) : Prop :=
  fs.Live d name n ∧ fs.IsReg n

/-- **The file that a path names**, from a directory on. -/
def Ext2Fs.Names (fs : Ext2Fs) : ℕ → List (List UInt8) → ℕ → Prop :=
  Resolves fs.LiveDir fs.LiveFile

/-- The directories of the tree. -/
def Ext2Fs.InTree (fs : Ext2Fs) : ℕ → Prop := Reached fs.LiveDir 2

/-- The `file_type` of a mode. -/
def fileTypeOf (mode : ℕ) : ℕ :=
  match mode / 4096 with
  | 8 => 1
  | 4 => 2
  | 2 => 3
  | 6 => 4
  | 1 => 5
  | 12 => 6
  | 10 => 7
  | _ => 0

/-- A valid tree: live entries name inodes, no two of a directory have one name, and where there is
    a file type it is that of the inode. -/
structure Ext2Fs.ValidTree (fs : Ext2Fs) : Prop where
  root : fs.Located 2
  located : ∀ d, fs.InTree d → ∀ de ∈ fs.dirEntries d, de.inode ≠ 0 → fs.Located de.inode
  typed : ∀ d, fs.InTree d → ∀ de ∈ fs.dirEntries d, de.inode ≠ 0 →
    de.fileType = 0 ∨ de.fileType = fileTypeOf (iMode (fs.inodeOf de.inode))
  unique : ∀ d, fs.InTree d → ∀ name n n', fs.Live d name n → fs.Live d name n' → n = n'

/-- A volume with a valid tree. -/
structure Ext2Image extends Ext2Fs where
  valid : toExt2Fs.ValidTree

/-- A path, without the NUL that ends it. -/
structure PathString where
  bytes : List UInt8
  noNul : 0 ∉ bytes

/-- Its names. -/
def PathString.names (path : PathString) : List (List UInt8) := path.bytes.splitOn 47

theorem InTree.located (hvalid : fs.ValidTree) (hd : fs.InTree d) : fs.Located d := by
  cases hd with
  | root => exact hvalid.root
  | step hparent hlive =>
    obtain ⟨⟨de, hmem, hinode, -, rfl⟩, -⟩ := hlive
    exact hvalid.located _ hparent de hmem hinode

theorem Names.unique (hvalid : fs.ValidTree) (hd : fs.InTree d) (h : fs.Names d vs n)
    (h' : fs.Names d vs n') : n = n' := by
  refine Resolves.unique h h' hd ?_ ?_
  · intro d hd name a b ha hb
    exact hvalid.unique d hd name a b ha.1 hb.1
  · intro d hd name a b ha hb
    exact hvalid.unique d hd name a b ha.1 hb.1

/-- What a path names is a regular file with an inode. -/
theorem Names.file (hvalid : fs.ValidTree) (hd : fs.InTree d) (h : fs.Names d vs n) :
    n ≠ 0 ∧ fs.IsReg n ∧ fs.Located n := by
  induction h with
  | last hfile =>
    obtain ⟨⟨de, hmem, hinode, -, rfl⟩, hreg⟩ := hfile
    exact ⟨hinode, hreg, hvalid.located _ hd de hmem hinode⟩
  | step hdir _ ih => exact ih (.step hd hdir)

theorem not_isDir_of_isReg (h : fs.IsReg n) : ¬ fs.IsDir n := by
  rw [Ext2Fs.IsReg] at h
  rw [Ext2Fs.IsDir, h]
  decide

/-! ## §2 Where a walk leads -/

/-- The walk ends at a file: in each file that is taken as a directory on the way, it goes by the
    first entry of the name, live or not. -/
inductive Ext2Fs.Leads (fs : Ext2Fs) : ℕ → List (List UInt8) → ℕ → Prop where
  | file {n : ℕ} {w : List UInt8} {ws : List (List UInt8)} {de : DirEntry} {raw : Mem} :
      fs.lookIn n w = .hit de → de.fileType ≤ 1 → fs.ext2GetInode de.inode = some raw →
      fs.Leads n (w :: ws) de.inode
  | on {n ino : ℕ} {w : List UInt8} {ws : List (List UInt8)} {de : DirEntry} :
      fs.lookIn n w = .hit de → 1 < de.fileType → fs.Leads de.inode ws ino →
      fs.Leads n (w :: ws) ino

/-- The walk ends where a name is not found, or an inode cannot be read. -/
inductive Ext2Fs.DeadEnd (fs : Ext2Fs) : ℕ → List (List UInt8) → Prop where
  | missing {n : ℕ} {w : List UInt8} {ws : List (List UInt8)} :
      fs.lookIn n w = .none → fs.DeadEnd n (w :: ws)
  | lost {n : ℕ} {w : List UInt8} {ws : List (List UInt8)} {de : DirEntry} :
      fs.lookIn n w = .hit de → de.fileType ≤ 1 → fs.ext2GetInode de.inode = none →
      fs.DeadEnd n (w :: ws)
  | on {n : ℕ} {w : List UInt8} {ws : List (List UInt8)} {de : DirEntry} :
      fs.lookIn n w = .hit de → 1 < de.fileType → fs.DeadEnd de.inode ws → fs.DeadEnd n (w :: ws)

theorem loadFrom_of_leads (h : fs.Leads n ws ino) (hraw : fs.ext2GetInode ino = some raw) :
    fs.loadFrom n ws = .found ino raw := by
  induction h with
  | file hhit htype hget =>
    rw [loadFrom_cons, hhit]
    simp only [if_pos htype, hraw]
  | on hhit htype _ ih =>
    rw [loadFrom_cons, hhit]
    simp only [if_neg (Nat.not_le.mpr htype), ih hraw]

theorem loadFrom_of_deadEnd (h : fs.DeadEnd n ws) : fs.loadFrom n ws = .failed := by
  induction h with
  | missing hnone => rw [loadFrom_cons, hnone]
  | lost hhit htype hget =>
    rw [loadFrom_cons, hhit]
    simp only [if_pos htype, hget]
  | on hhit htype _ ih =>
    rw [loadFrom_cons, hhit]
    simp only [if_neg (Nat.not_le.mpr htype), ih]

/-- **Where a walk leads**, of the three ways that it can end. -/
theorem loadFrom_cases (fs : Ext2Fs) (n : ℕ) (ws : List (List UInt8)) :
    fs.loadFrom n ws = .overrun ∨ fs.DeadEnd n ws ∨
      ∃ ino raw, fs.Leads n ws ino ∧ fs.ext2GetInode ino = some raw := by
  induction ws generalizing n with
  | nil => exact .inl rfl
  | cons w ws ih =>
    rw [loadFrom_cons]
    cases hlook : fs.lookIn n w with
    | none => exact .inr (.inl (.missing hlook))
    | overrun => exact .inl rfl
    | hit de =>
      by_cases htype : de.fileType ≤ 1
      · cases hget : fs.ext2GetInode de.inode with
        | none => exact .inr (.inl (.lost hlook htype hget))
        | some raw => exact .inr (.inr ⟨_, _, .file hlook htype hget, hget⟩)
      · simp only [if_neg htype]
        have hon := Nat.lt_of_not_le htype
        rcases ih de.inode with hover | hdead | ⟨ino, raw, hleads, hget⟩
        · exact .inl hover
        · exact .inr (.inl (.on hlook hon hdead))
        · exact .inr (.inr ⟨_, _, .on hlook hon hleads, hget⟩)

theorem loadFrom_failed_iff : fs.loadFrom n ws = .failed ↔ fs.DeadEnd n ws := by
  refine ⟨fun h => ?_, loadFrom_of_deadEnd⟩
  rcases loadFrom_cases fs n ws with hover | hdead | ⟨ino, raw, hleads, hget⟩
  · rw [hover] at h
    cases h
  · exact hdead
  · rw [loadFrom_of_leads hleads hget] at h
    cases h

theorem loadFrom_found_iff :
    fs.loadFrom n ws = .found ino raw ↔ fs.Leads n ws ino ∧ fs.ext2GetInode ino = some raw := by
  refine ⟨fun h => ?_, fun h => loadFrom_of_leads h.1 h.2⟩
  rcases loadFrom_cases fs n ws with hover | hdead | ⟨ino', raw', hleads, hget⟩
  · rw [hover] at h
    cases h
  · rw [loadFrom_of_deadEnd hdead] at h
    cases h
  · rw [loadFrom_of_leads hleads hget] at h
    cases h
    exact ⟨hleads, hget⟩

/-! ## §3 When a walk is right -/

/-- A run ends as the tree says: no object is overrun, and `the_inode` is set to an inode exactly
    when the path names it. -/
def Ext2Fs.Agrees (fs : Ext2Fs) (r : Loaded) (d : ℕ) (vs : List (List UInt8)) : Prop :=
  r ≠ .overrun ∧ ∀ ino raw, r = .found ino raw ↔ fs.Names d vs ino ∧ raw = fs.inodeOf ino

/-- **When the walk from a directory is right**; `vs` are the names of the path and `ws` those that
    end in `pathname`. -/
def Ext2Fs.Straight (fs : Ext2Fs) : ℕ → List (List UInt8) → List (List UInt8) → Prop
  -- the next name does not end in `pathname`
  | _, _, [] => False
  -- the last name is that of a directory, where an empty name is looked for
  | d, [], _ :: _ => firstEntry [] (fs.dirEntries d) ≠ .overrun
  | d, v :: vs, _ :: ws =>
    match firstEntry v (fs.dirEntries d) with
    -- an entry with the longest name comes first
    | .overrun => False
    -- the name is not found, and a live entry of it behind one without a name leads nowhere
    | .none => ¬ ∃ n, fs.Names d (v :: vs) n
    | .hit de =>
      if de.fileType ≤ 1 then
        -- the entry is taken for a file: it is the last name's and live, or its inode is not there
        (vs = [] ∧ de.inode ≠ 0 ∧ fs.IsReg de.inode) ∨
          (fs.ext2GetInode de.inode = none ∧ ¬ ∃ n, fs.Names d (v :: vs) n)
      else if de.inode ≠ 0 ∧ fs.IsDir de.inode then fs.Straight de.inode vs ws
      else
        -- the entry is deleted or not a directory, and what is there leads nowhere, as the path
        -- does, or by chance to the same file
        (fs.DeadEnd de.inode ws ∧ ¬ ∃ n, fs.Names d (v :: vs) n) ∨
          ∃ n, fs.Leads de.inode ws n ∧ fs.Names d (v :: vs) n

theorem not_agrees_overrun : ¬ fs.Agrees .overrun d vs := fun h => h.1 rfl

theorem agrees_failed : fs.Agrees .failed d vs ↔ ¬ ∃ n, fs.Names d vs n := by
  constructor
  · rintro ⟨-, hall⟩ ⟨n, hnames⟩
    have hfound := (hall n (fs.inodeOf n)).mpr ⟨hnames, rfl⟩
    cases hfound
  · intro hnone
    refine ⟨nofun, fun ino raw => iff_of_false nofun ?_⟩
    rintro ⟨hnames, -⟩
    exact hnone ⟨ino, hnames⟩

theorem agrees_found (hvalid : fs.ValidTree) (hd : fs.InTree d)
    (hget : fs.ext2GetInode n = some raw) :
    fs.Agrees (.found n raw) d vs ↔ fs.Names d vs n := by
  constructor
  · rintro ⟨-, hall⟩
    exact ((hall n raw).mp rfl).1
  · intro hnames
    have hlocated := (Names.file hvalid hd hnames).2.2
    rw [ext2GetInode_eq hlocated, Option.some.injEq] at hget
    refine ⟨nofun, fun ino raw' => ?_⟩
    constructor
    · intro heq
      cases heq
      exact ⟨hnames, hget.symm⟩
    · rintro ⟨hnames', rfl⟩
      obtain rfl := Names.unique hvalid hd hnames hnames'
      rw [hget]

theorem lookIn_eq (h : fs.Located d) : fs.lookIn d name = firstEntry name (fs.dirEntries d) := by
  rw [Ext2Fs.lookIn, Ext2Fs.dirEntries, ext2GetInode_eq h, Option.bind_some]
  cases fs.readFile (fs.inodeOf d) with
  | none => rfl
  | some bh => rfl

/-- An empty name is never found. -/
theorem firstEntry_nil_ne (de : DirEntry) : firstEntry [] (fs.dirEntries d) ≠ .hit de := by
  intro h
  obtain ⟨hmem, hname, hlen⟩ := firstEntry_hit h
  rw [Ext2Fs.dirEntries] at hmem
  cases hread : fs.readFile (fs.inodeOf d) with
  | none => simp [hread] at hmem
  | some bh =>
    rw [hread] at hmem
    have hlength := length_name hmem
    rw [hname, List.length_nil] at hlength
    omega

/-- From a directory, a name of a directory leads on. -/
theorem names_cons_iff (hvalid : fs.ValidTree) (hd : fs.InTree d) (hdir : fs.LiveDir d v n) :
    fs.Names d (v :: vs) ino ↔ fs.Names n vs ino := by
  rw [Ext2Fs.Names, resolves_cons]
  constructor
  · rintro (⟨-, hfile⟩ | ⟨d', hdir', hrest⟩)
    · obtain rfl := hvalid.unique d hd v _ _ hdir.1 hfile.1
      exact absurd hdir.2 (not_isDir_of_isReg hfile.2)
    · obtain rfl := hvalid.unique d hd v _ _ hdir.1 hdir'.1
      exact hrest
  · exact fun hrest => .inr ⟨n, hdir, hrest⟩

/-- An entry that is taken for a file. -/
theorem names_of_hit_iff (hvalid : fs.ValidTree) (hd : fs.InTree d)
    (hmem : de ∈ fs.dirEntries d) (hname : de.name = v) :
    fs.Names d (v :: vs) de.inode ↔ vs = [] ∧ de.inode ≠ 0 ∧ fs.IsReg de.inode := by
  constructor
  · intro hnames
    obtain ⟨hinode, hreg, -⟩ := Names.file hvalid hd hnames
    rcases resolves_cons.mp hnames with ⟨hnil, -⟩ | ⟨d', hdir, -⟩
    · exact ⟨hnil, hinode, hreg⟩
    · -- the entry would be that of a directory
      obtain rfl := hvalid.unique d hd v _ _ hdir.1 ⟨de, hmem, hinode, hname, rfl⟩
      exact absurd hdir.2 (not_isDir_of_isReg hreg)
  · rintro ⟨rfl, hinode, hreg⟩
    exact .last ⟨⟨de, hmem, hinode, hname, rfl⟩, hreg⟩

/-- A walk that has gone astray. -/
theorem agrees_loadFrom_iff (hvalid : fs.ValidTree) (hd : fs.InTree d) :
    fs.Agrees (fs.loadFrom n ws) d vs ↔
      (fs.DeadEnd n ws ∧ ¬ ∃ ino, fs.Names d vs ino) ∨
        ∃ ino, fs.Leads n ws ino ∧ fs.Names d vs ino := by
  constructor
  · intro hagrees
    rcases loadFrom_cases fs n ws with hover | hdead | ⟨ino, raw, hleads, hget⟩
    · rw [hover] at hagrees
      exact absurd hagrees not_agrees_overrun
    · rw [loadFrom_of_deadEnd hdead] at hagrees
      exact .inl ⟨hdead, agrees_failed.mp hagrees⟩
    · rw [loadFrom_of_leads hleads hget] at hagrees
      exact .inr ⟨ino, hleads, (agrees_found hvalid hd hget).mp hagrees⟩
  · rintro (⟨hdead, hnone⟩ | ⟨ino, hleads, hnames⟩)
    · rw [loadFrom_of_deadEnd hdead]
      exact agrees_failed.mpr hnone
    · have hget := ext2GetInode_eq (Names.file hvalid hd hnames).2.2
      rw [loadFrom_of_leads hleads hget]
      exact (agrees_found hvalid hd hget).mpr hnames

/-- **A walk from a directory** agrees with the tree exactly when it goes straight. -/
theorem loads_iff_straight (hvalid : fs.ValidTree) (hd : fs.InTree d) (halong : Along vs ws) :
    fs.Agrees (fs.loadFrom d ws) d vs ↔ fs.Straight d vs ws := by
  induction ws generalizing d vs with
  | nil =>
    rw [Ext2Fs.loadFrom, Ext2Fs.Straight]
    exact iff_false_intro not_agrees_overrun
  | cons w ws ih =>
    have hlook (w : List UInt8) : fs.lookIn d w = firstEntry w (fs.dirEntries d) :=
      lookIn_eq (InTree.located hvalid hd)
    rw [loadFrom_cons, hlook]
    cases vs with
    | nil =>
      obtain rfl : w = [] := halong w List.mem_cons_self
      rw [Ext2Fs.Straight]
      cases hfirst : firstEntry [] (fs.dirEntries d) with
      | none =>
        apply iff_of_true
        · apply agrees_failed.mpr
          rintro ⟨n, hnames⟩
          exact not_resolves_nil hnames
        · intro h
          cases h
      | overrun => exact iff_of_false not_agrees_overrun fun h => h rfl
      | hit de => exact absurd hfirst (firstEntry_nil_ne de)
    | cons v vs =>
      obtain ⟨rfl, hrest⟩ := halong
      rw [Ext2Fs.Straight]
      cases hfirst : firstEntry v (fs.dirEntries d) with
      | none => exact agrees_failed
      | overrun => exact iff_of_false not_agrees_overrun id
      | hit de =>
        obtain ⟨hmem, hname, -⟩ := firstEntry_hit hfirst
        have hnames : fs.Names d (v :: vs) de.inode ↔ vs = [] ∧ de.inode ≠ 0 ∧ fs.IsReg de.inode :=
          names_of_hit_iff hvalid hd hmem hname
        dsimp only
        by_cases htype : de.fileType ≤ 1
        · rw [if_pos htype, if_pos htype, ← hnames]
          cases hget : fs.ext2GetInode de.inode with
          | none =>
            have hno : ¬ fs.Names d (v :: vs) de.inode := by
              intro hfile
              rw [ext2GetInode_eq (Names.file hvalid hd hfile).2.2] at hget
              cases hget
            dsimp only
            rw [agrees_failed]
            simp [hno]
          | some raw =>
            dsimp only
            rw [agrees_found hvalid hd hget]
            simp
        · rw [if_neg htype, if_neg htype]
          by_cases hdir : de.inode ≠ 0 ∧ fs.IsDir de.inode
          · have hlive : fs.LiveDir d v de.inode := ⟨⟨de, hmem, hdir.1, hname, rfl⟩, hdir.2⟩
            rw [if_pos hdir, ← ih (.step hd hlive) hrest]
            simp only [Ext2Fs.Agrees, names_cons_iff hvalid hd hlive]
          · rw [if_neg hdir]
            exact agrees_loadFrom_iff hvalid hd

/-! ## §4 Paths from the root -/

/-- `ext2_load_linux` finds exactly the file that a path names. -/
def Ext2Fs.FindsNamed (fs : Ext2Fs) (path : PathString) : Prop :=
  fs.Agrees (fs.ext2LoadLinux path.bytes) 2 path.names

/-- **Every path** is followed as the tree says, exactly when the walk from the root goes straight. -/
theorem ext2LoadLinux_exact (fs : Ext2Image) (path : PathString) :
    fs.FindsNamed path ↔ fs.Straight 2 path.names (pathnameOf path.bytes) :=
  loads_iff_straight fs.valid .root (along_splitOn path.noNul ext2NameLen)

/-- A volume of blocks of 1024 bytes: a descriptor in block 2, inodes 2 and 12, and the block of
    the root directory. -/
def smallBytes : Mem :=
  ((((Mem.store (fun _ => 0) 2056 [3]).store 3200 [0xed, 0x41, 0, 0, 0, 4]).store 3240 [5]).store
    4480 [0xa4, 0x81]).store 5120
      [2, 0, 0, 0, 12, 0, 1, 2, 46, 0, 0, 0, 2, 0, 0, 0, 12, 0, 2, 2, 46, 46, 0, 0,
        12, 0, 0, 0, 0xe8, 3, 7, 1, 118, 109, 108, 105, 110, 117, 120]

@[inherit_doc smallBytes] def smallVolume : Ext2Fs where
  sb := ⟨1024, 0⟩
  dev := ⟨smallBytes, smallBytes, fun _ _ => false⟩
  inodesPerGrp := 16
  inodeSize := 128
  readFile raw := some fun a => smallBytes (raw.word 40 * 1024 + a)
  blockSize_dvd := by decide

/-- The root directory holds itself and a regular file `vmlinux`. -/
theorem dirEntries_smallVolume : smallVolume.dirEntries 2 =
    [⟨2, 12, 1, 2, ascii "."⟩, ⟨2, 12, 2, 2, ascii ".."⟩, ⟨12, 1000, 7, 1, ascii "vmlinux"⟩] := by
  have hsize : iSize (smallVolume.inodeOf 2) = 1024 := by decide
  have hblock : (smallVolume.inodeOf 2).word 40 = 5 := by decide
  have hread : smallVolume.readFile (smallVolume.inodeOf 2) =
      some fun a => smallBytes (5 * 1024 + a) := by rw [← hblock]; rfl
  rw [Ext2Fs.dirEntries, hread, hsize]
  generalize hbh : (fun a => smallBytes (5 * 1024 + a)) = bh
  have h0 : entryAt bh 0 = ⟨2, 12, 1, 2, ascii "."⟩ := by rw [← hbh]; decide
  have h12 : entryAt bh 12 = ⟨2, 12, 2, 2, ascii ".."⟩ := by rw [← hbh]; decide
  have h24 : entryAt bh 24 = ⟨12, 1000, 7, 1, ascii "vmlinux"⟩ := by rw [← hbh]; decide
  have hend : entries bh 1024 1024 = [] := by rw [entries, if_neg (by simp)]
  calc entries bh 1024 0
      = _ :: entries bh 1024 12 := entries_cons h0 (by decide) (by decide)
    _ = _ :: _ :: entries bh 1024 24 := congrArg _ (entries_cons h12 (by decide) (by decide))
    _ = _ :: _ :: _ :: entries bh 1024 1024 :=
        congrArg _ (congrArg _ (entries_cons h24 (by decide) (by decide)))
    _ = _ := by rw [hend]

theorem inTree_smallVolume (hd : smallVolume.InTree d) : d = 2 := by
  induction hd with
  | root => rfl
  | step _ hdir ih =>
    subst ih
    obtain ⟨⟨de, hmem, -, -, rfl⟩, hdir⟩ := hdir
    rw [dirEntries_smallVolume] at hmem
    simp only [List.mem_cons, List.not_mem_nil, or_false] at hmem
    rcases hmem with rfl | rfl | rfl
    · rfl
    · rfl
    · revert hdir
      decide

theorem located_smallVolume (hpos : 0 < n) (hn : n ≤ 16) : smallVolume.Located n := by
  have hgroup : smallVolume.group n = 0 :=
    Nat.div_eq_of_lt (by simp only [smallVolume]; omega)
  have hindex : smallVolume.index n = n - 1 :=
    Nat.mod_eq_of_lt (by simp only [smallVolume]; omega)
  have htable : smallVolume.inodeTable 0 = 3 := by decide
  have hsize : smallVolume.inodeSize = 128 := rfl
  have hblock : smallVolume.sb.blockSize = 1024 := rfl
  refine ⟨hpos, by omega, ?_, ?_, ?_, rfl, rfl⟩
  · rw [hindex, hsize]
    omega
  · rw [hindex, hsize, hblock]
    omega
  · rw [hindex, hsize, hblock, hgroup, htable]
    omega

theorem validTree_smallVolume : smallVolume.ValidTree where
  root := located_smallVolume (by decide) (by decide)
  located d hd de hmem _ := by
    obtain rfl := inTree_smallVolume hd
    rw [dirEntries_smallVolume] at hmem
    simp only [List.mem_cons, List.not_mem_nil, or_false] at hmem
    rcases hmem with rfl | rfl | rfl
    all_goals exact located_smallVolume (by decide) (by decide)
  typed d hd de hmem _ := by
    obtain rfl := inTree_smallVolume hd
    rw [dirEntries_smallVolume] at hmem
    simp only [List.mem_cons, List.not_mem_nil, or_false] at hmem
    rcases hmem with rfl | rfl | rfl
    all_goals exact .inr (by decide)
  unique d hd name n n' hn hn' := by
    obtain rfl := inTree_smallVolume hd
    obtain ⟨de, hmem, -, hname, rfl⟩ := hn
    obtain ⟨de', hmem', -, hname', rfl⟩ := hn'
    rw [dirEntries_smallVolume] at hmem hmem'
    have hsame : de.name = de'.name := hname.trans hname'.symm
    simp only [List.mem_cons, List.not_mem_nil, or_false] at hmem hmem'
    -- two of the entries have one name only where they are one
    rcases hmem with rfl | rfl | rfl <;> rcases hmem' with rfl | rfl | rfl <;>
      first | rfl | exact absurd hsame (by decide)

/-- `vmlinux/x` is found, and names nothing: `vmlinux` is no directory. -/
theorem ext2LoadLinux_fileInPath :
    ¬ Ext2Fs.FindsNamed (⟨smallVolume, validTree_smallVolume⟩ : Ext2Image).toExt2Fs
      ⟨ascii "vmlinux/x", by decide⟩ := by
  have hfirst : firstEntry (ascii "vmlinux") (smallVolume.dirEntries 2) =
      .hit ⟨12, 1000, 7, 1, ascii "vmlinux"⟩ := by
    rw [dirEntries_smallVolume]
    decide
  have hget := ext2GetInode_eq (@located_smallVolume 12 (by decide) (by decide))
  have hnames : (ascii "vmlinux/x").splitOn 47 = [ascii "vmlinux", ascii "x"] := by decide
  have halong : Along ((ascii "vmlinux/x").splitOn 47) (pathnameOf (ascii "vmlinux/x")) :=
    along_splitOn (by decide) ext2NameLen
  intro hfinds
  rw [hnames] at halong
  have hstraight := (loads_iff_straight validTree_smallVolume .root halong).mp
    (by rwa [Ext2Fs.FindsNamed, PathString.names, hnames] at hfinds)
  -- the entry is taken for the file, and a name is left
  cases hpieces : pathnameOf (ascii "vmlinux/x") with
  | nil =>
    rw [hpieces] at hstraight
    exact hstraight
  | cons w ws =>
    rw [hpieces, Ext2Fs.Straight, hfirst] at hstraight
    rcases hstraight with ⟨hnil, -⟩ | ⟨hnone, -⟩
    · cases hnil
    · rw [hget] at hnone
      cases hnone

end Pmon.Fs.Ext2
