import Pmon.Fs.DevPartRight

/-!
# The paths of `open`

What `open` of the C library does to a path before it looks for a file system: it copies the path,
rewrites what begins with `/dev/fs/fat` or `/dev/fs/ram` in place, and has
`filename_path_transform` rewrite what begins with a bracket.

## Key results

- `transform_path`: what a path in brackets becomes.
- `openPath_exact`: two bytes behind the path are read by every call, and when nothing else is wrong
  with it.
-/

namespace Pmon.Fs

open Pmon.Libc

/-! ## §1 `open` -/

/-- What a write fills of a buffer, from the start of the buffer on. -/
structure Fill where
  size : ℕ
  upto : ℕ

/-- What becomes of a path. -/
inductive Rewritten where
  /-- No slot of `_file` is free. -/
  | full
  | fail
  /-- The arguments of `__try_open`. -/
  | handed (name : CStr) (dname : Option CStr)
  /-- Something is read or written through a bad pointer or beyond a buffer. -/
  | wild
deriving DecidableEq

structure OpenPath where
  /-- How many bytes of `filename` are copied. -/
  copied : ℕ
  fills : List Fill
  result : Rewritten

/-- Whether `malloc` has memory. -/
structure Room where
  fname : Bool
  temp : Bool

/-- `fat_support`, for a `dname` behind the five characters `/dev/` of a buffer: the copy in `temp`
    and the new name, which is longer. -/
def fatSupport (room : Room) (fnamelen size : ℕ) (dname : CStr) : List Fill × Option CStr :=
  let temp : Fill := ⟨fnamelen + 3, dname.length + 1⟩
  let grow (disk : CStr) : List Fill × Option CStr :=
    if room.temp then
      let name := disk ++ dname.drop 6
      ([temp, ⟨size, 5 + name.length + 1⟩], some name)
    else ([], none)
  if ascii "fs/fat" <+: dname then grow (ascii "fat/disk")
  else if ascii "fs/ram" <+: dname then grow (ascii "fat/ram")
  else ([], some dname)

/-- A name that begins with `/dev/` is handed on. -/
def openDev (room : Room) (copied fnamelen size : ℕ) (fills : List Fill) (name : CStr) :
    OpenPath :=
  match fatSupport room fnamelen size (name.drop 5) with
  | (more, some dname) => ⟨copied, fills ++ more, .handed (ascii "/dev/" ++ dname) (some dname)⟩
  | (more, none) => ⟨copied, fills ++ more, .wild⟩

/-- `open`, up to the call of `__try_open`. -/
def openPath (devices : List DeviceDisk) (room : Room) (slotFree : Bool) (filename : CStr) :
    OpenPath :=
  let fnamelen := filename.length
  let copied := fnamelen + 2 + 1
  if ¬ room.fname then ⟨copied, [], .wild⟩
  else
    let fname : Fill := ⟨fnamelen + 2 + 1, copied⟩
    if ¬ slotFree then ⟨copied, [fname], .full⟩
    else if ascii "/dev/" <+: filename then
      openDev room copied fnamelen (fnamelen + 2 + 1) [fname] filename
    else if strpat filename (ascii "*ftp://*") then
      ⟨copied, [fname], .handed filename (some (ascii "net"))⟩
    else if strpat filename (ascii "file://*") then
      ⟨copied, [fname], .handed (filename.drop 6) none⟩
    else if strpat filename (ascii "http://*") then
      ⟨copied, [fname], .handed filename (some (ascii "net"))⟩
    else if strpat filename (ascii "nfs://*") then
      ⟨copied, [fname], .handed filename (some (ascii "net"))⟩
    else if filename.head? = some 40 then
      match filenamePathTransform devices filename with
      | .wild => ⟨copied, [fname], .wild⟩
      | .fail => ⟨copied, [fname], .fail⟩
      -- `tname` begins with `/dev/`, and has a hundred bytes
      | .path tname _ _ =>
        openDev room copied tname.length 100 [fname, ⟨100, tname.length + 1⟩] tname
    else ⟨copied, [fname], .handed filename (some filename)⟩

/-! ## §2 What it should do -/

/-- What stands behind the bracket. -/
def behindBracket (path : CStr) : CStr := (path.dropWhile (· != 41)).tail

/-- The device in the bracket. -/
def bracketDev (path : CStr) : CStr := (path.drop 1).takeWhile (· != 44)

/-- A path that is in brackets for `open`. -/
structure Bracketed (path : CStr) : Prop where
  head : path.head? = some 40
  ftp : strpat path (ascii "*ftp://*") = false
  file : strpat path (ascii "file://*") = false
  http : strpat path (ascii "http://*") = false
  nfs : strpat path (ascii "nfs://*") = false

/-- How the file systems are named that a path in brackets comes to. -/
def handedNames : List CStr := [ascii "fat/disk@", ascii "fs/ext2@", ascii "fs/iso9660@"]

/-- The name that is handed on has the file part of the path, behind the device. -/
structure Kept (path name : CStr) : Prop where
  fat : ∀ rest, path = ascii "/dev/fs/fat" ++ rest → name = ascii "/dev/fat/disk" ++ rest
  ram : ∀ rest, path = ascii "/dev/fs/ram" ++ rest → name = ascii "/dev/fat/ram" ++ rest
  /-- The partition is a letter, if it is in the name. -/
  bracket : Bracketed path → ∃ fsname ∈ handedNames, ∃ letter : CStr, letter.length ≤ 1 ∧
    name = ascii "/dev/" ++ (fsname ++ (bracketDev path ++ (letter ++ behindBracket path)))

/-- What is right besides the copy. -/
structure RestRight (path : CStr) (o : OpenPath) : Prop where
  result : o.result ≠ .wild
  fills : ∀ f ∈ o.fills, f.upto ≤ f.size
  kept : ∀ name dname, o.result = .handed name dname → Kept path name

/-- **The path is rewritten as it should be.** -/
structure OpenRight (path : CStr) (o : OpenPath) : Prop where
  /-- No more is read than the path and the zero at its end. -/
  copied : o.copied ≤ path.length + 1
  rest : RestRight path o

/-- When the rest is right: there is memory; and a path in brackets leads `filename_path_transform`
    nowhere else, has no `/` in the bracket, and a name on a FAT file system has two bytes left to
    grow in. -/
structure RestFits (devices : List DeviceDisk) (room : Room) (slotFree : Bool) (path : CStr) :
    Prop where
  fname : room.fname
  dev : slotFree → ascii "/dev/fs/fat" <+: path ∨ ascii "/dev/fs/ram" <+: path → room.temp
  bracket : slotFree → Bracketed path → filenamePathTransform devices path ≠ .wild ∧
    ∀ tname pdev slot, filenamePathTransform devices path = .path tname pdev slot →
      47 ∉ path.takeWhile (· != 41) ∧
      (ascii "/dev/fs/fat" <+: tname → tname.length + 2 < 100 ∧ room.temp)

/-! ## §3 Names -/

variable {path tname dev filepath name : CStr} {devices : List DeviceDisk} {pdev : DeviceDisk}
  {slot size fnamelen copied : ℕ} {room : Room} {fills : List Fill} {slotFree : Bool}

/-- The names of the file systems in a path of `filename_path_transform`. -/
def fsNames : List CStr := [ascii "fat", ascii "ext2", ascii "iso9660"]

theorem putName_path {fsname buff : CStr} {pdev' : DeviceDisk} {slot' : ℕ}
    (h : putName fsname buff filepath pdev slot = .path tname pdev' slot') :
    tname = ascii "/dev/fs/" ++ fsname ++ 64 :: buff ++ 47 :: filepath ∧ tname.length < 100 := by
  rw [putName] at h
  split at h
  · rename_i hlt
    cases h
    exact ⟨rfl, hlt⟩
  · cases h

theorem deviceName_path {id : UInt8} (h : deviceName devices dev filepath id =
    .path tname pdev slot) : ∃ fsname ∈ fsNames, ∃ letter : CStr, letter.length ≤ 1 ∧
      tname = ascii "/dev/fs/" ++ fsname ++ 64 :: (dev ++ letter) ++ 47 :: filepath ∧
      tname.length < 100 := by
  have hbuff : ∃ letter : CStr, letter.length ≤ 1 ∧
      (if id + 49 = 0 then dev else dev ++ [id + 49]) = dev ++ letter := by
    split
    · exact ⟨[], by simp, by simp⟩
    · exact ⟨[id + 49], by simp, rfl⟩
  obtain ⟨letter, hletter, hbuff⟩ := hbuff
  have hfat : ascii "fat" ∈ fsNames := List.mem_cons_self
  have hext2 : ascii "ext2" ∈ fsNames := List.mem_cons_of_mem _ List.mem_cons_self
  unfold deviceName at h
  split at h
  · cases h
  · dsimp only at h
    rw [hbuff] at h
    split at h
    · obtain ⟨rfl, hlt⟩ := putName_path h
      exact ⟨ascii "iso9660", by simp [fsNames], [], by simp, by rw [List.append_nil], hlt⟩
    · exact ⟨_, hfat, letter, hletter, putName_path h⟩
    · exact ⟨_, hext2, letter, hletter, putName_path h⟩
    · split at h
      · split at h
        · cases h
        · split at h
          · exact ⟨_, hfat, letter, hletter, putName_path h⟩
          · exact ⟨_, hext2, letter, hletter, putName_path h⟩
          · cases h
      · cases h
    · cases h

theorem strchr_eq_some {s p : CStr} {c : UInt8} (h : strchr s c = some p) :
    p = c :: p.drop 1 ∧ p = s.dropWhile (· != c) := by
  rw [strchr] at h
  have hhead := List.head?_dropWhile_not (· != c) s
  split at h
  · cases h
  · cases h
    rename_i hne
    cases hp : s.dropWhile (· != c) with
    | nil => exact absurd hp hne
    | cons d p =>
      rw [hp] at hhead
      have hd : d = c := by simpa using hhead
      rw [hd]
      exact ⟨rfl, rfl⟩

/-- The device ends at a comma that is copied with it. -/
theorem takeWhile_take_comma {s p : CStr} {n : ℕ} (h : strchr (s.take n) 44 = some p) :
    (s.take n).takeWhile (· != 44) = s.takeWhile (· != 44) := by
  have hsplit : s.takeWhile (· != 44) = (s.take n ++ s.drop n).takeWhile (· != 44) := by
    rw [List.take_append_drop]
  rw [hsplit, List.takeWhile_append, if_neg]
  intro hlen
  obtain ⟨hcons, hdrop⟩ := strchr_eq_some h
  have hall := congrArg List.length
    (List.takeWhile_append_dropWhile (p := (· != 44)) (l := s.take n))
  rw [List.length_append, ← hdrop, hcons, List.length_cons, hlen] at hall
  omega

/-- **What a path in brackets becomes.** -/
theorem transform_path (h : filenamePathTransform devices path = .path tname pdev slot) :
    ∃ fsname ∈ fsNames, ∃ letter filepath : CStr, letter.length ≤ 1 ∧
      strchr path 47 = some (47 :: filepath) ∧
      tname = ascii "/dev/fs/" ++ fsname ++ 64 :: (bracketDev path ++ letter) ++ 47 :: filepath ∧
      tname.length < 100 ∧
      ∃ p1, strchr path 41 = some p1 ∧ (p1.getD 1 0 = 0 ∨ p1.getD 1 0 = 47) := by
  unfold filenamePathTransform at h
  split at h
  · cases h
  · dsimp only at h
    split at h
    · cases h
    · split at h
      · cases h
      · rename_i p1 hp1
        split at h
        · cases h
        · rename_i hbehind
          split at h
          · cases h
          · rename_i comma hcomma
            split at h
            · cases h
            · rename_i p hp
              split at h
              · cases h
              · obtain ⟨fsname, hfs, letter, hletter, htname, hlt⟩ := deviceName_path h
                rw [takeWhile_take_comma hcomma] at htname
                refine ⟨fsname, hfs, letter, p.drop 1, hletter, ?_, htname, hlt, p1, hp1, ?_⟩
                · rw [← (strchr_eq_some hp).1]
                  exact hp
                · by_contra! hne
                  exact hbehind hne

/-- The bracket of a path that is transformed, and what is behind it. -/
theorem transform_behind {p1 : CStr} (hnul : 0 ∉ path) (hp1 : strchr path 41 = some p1)
    (hnext : p1.getD 1 0 = 0 ∨ p1.getD 1 0 = 47) :
    path = path.takeWhile (· != 41) ++ 41 :: behindBracket path ∧
      (behindBracket path = [] ∨ (behindBracket path).head? = some 47) := by
  obtain ⟨hcons, hdrop⟩ := strchr_eq_some hp1
  have hbehind : behindBracket path = p1.drop 1 := by
    rw [behindBracket, ← hdrop, List.drop_one]
  have hpath : path = path.takeWhile (· != 41) ++ 41 :: behindBracket path := by
    rw [hbehind, ← hcons, hdrop, List.takeWhile_append_dropWhile]
  refine ⟨hpath, ?_⟩
  rw [hcons, ← hbehind] at hnext
  cases hb : behindBracket path with
  | nil => exact Or.inl rfl
  | cons c rest =>
    rw [hb] at hnext hpath
    right
    rcases hnext with hzero | hslash
    · have hc : c = 0 := hzero
      refine absurd ?_ hnul
      rw [hpath, hc]
      exact List.mem_append_right _ (List.mem_cons_of_mem _ List.mem_cons_self)
    · have hc : c = 47 := hslash
      rw [hc]
      rfl

/-- **The file part is what is behind the bracket**, if there is no `/` in the bracket; and it is
    longer by two at least if there is one. -/
theorem filepath_behind (hpath : path = path.takeWhile (· != 41) ++ 41 :: behindBracket path)
    (hnext : behindBracket path = [] ∨ (behindBracket path).head? = some 47)
    (h : strchr path 47 = some (47 :: filepath)) :
    (47 ∉ path.takeWhile (· != 41) → behindBracket path = 47 :: filepath) ∧
      (47 ∈ path.takeWhile (· != 41) → (behindBracket path).length + 1 ≤ filepath.length) := by
  obtain ⟨-, hdrop⟩ := strchr_eq_some h
  generalize path.takeWhile (· != 41) = pre at hpath ⊢
  generalize behindBracket path = rest at hpath hnext ⊢
  constructor
  · intro hnone
    have hskip : ∀ c ∈ pre, (c != 47) = true := fun c hc => by
      rw [bne_iff_ne]
      exact fun heq => hnone (heq ▸ hc)
    rw [hpath, List.dropWhile_append_of_pos hskip, List.dropWhile_cons_of_pos (by decide)] at hdrop
    rcases hnext with rfl | hhead
    · cases hdrop
    · obtain ⟨rest', rfl⟩ := List.head?_eq_some_iff.mp hhead
      rw [List.dropWhile_cons_of_neg (by decide)] at hdrop
      exact hdrop.symm
  · intro hmem
    have hne : pre.dropWhile (· != 47) ≠ [] := by
      rw [Ne, List.dropWhile_eq_nil_iff]
      intro hall
      have := hall 47 hmem
      simp at this
    rw [hpath, List.dropWhile_append, if_neg (by simpa using hne)] at hdrop
    have hlen := congrArg List.length hdrop
    have hpos := List.length_pos_iff.mpr hne
    rw [List.length_append, List.length_cons, List.length_cons] at hlen
    omega

/-! ## §4 Rewriting -/

theorem not_bracketed_of_dev {rest : CStr} (h : path = ascii "/dev/" ++ rest) :
    ¬ Bracketed path := by
  rintro ⟨hhead, -⟩
  rw [h] at hhead
  cases hhead

theorem dev_of_begins (h : ascii "/dev/fs/fat" <+: path ∨ ascii "/dev/fs/ram" <+: path) :
    ascii "/dev/" <+: path := by
  rcases h with ⟨more, rfl⟩ | ⟨more, rfl⟩
  · exact ⟨ascii "fs/fat" ++ more, rfl⟩
  · exact ⟨ascii "fs/ram" ++ more, rfl⟩

/-- The two names of the first kind. -/
theorem openDev_fat (rest : CStr) :
    openDev room copied fnamelen size fills (ascii "/dev/fs/fat" ++ rest) =
      if room.temp then
        ⟨copied, fills ++ [⟨fnamelen + 3, rest.length + 7⟩, ⟨size, rest.length + 14⟩],
          .handed (ascii "/dev/fat/disk" ++ rest) (some (ascii "fat/disk" ++ rest))⟩
      else ⟨copied, fills ++ [], .wild⟩ := by
  have hfat : ascii "fs/fat" <+: ascii "fs/fat" ++ rest := List.prefix_append _ _
  have hdrop : (ascii "/dev/fs/fat" ++ rest).drop 5 = ascii "fs/fat" ++ rest := rfl
  have hdrop' : (ascii "fs/fat" ++ rest).drop 6 = rest := rfl
  have hlen : (ascii "fs/fat").length = 6 := rfl
  have hlen' : (ascii "fat/disk").length = 8 := rfl
  rw [openDev, hdrop, fatSupport]
  dsimp only
  rw [if_pos hfat, hdrop', List.length_append, List.length_append, hlen, hlen']
  cases room.temp with
  | true =>
    have h7 : 6 + rest.length + 1 = rest.length + 7 := by omega
    have h14 : 5 + (8 + rest.length) + 1 = rest.length + 14 := by omega
    rw [h7, h14]
    rfl
  | false => rfl

theorem openDev_ram (rest : CStr) :
    openDev room copied fnamelen size fills (ascii "/dev/fs/ram" ++ rest) =
      if room.temp then
        ⟨copied, fills ++ [⟨fnamelen + 3, rest.length + 7⟩, ⟨size, rest.length + 13⟩],
          .handed (ascii "/dev/fat/ram" ++ rest) (some (ascii "fat/ram" ++ rest))⟩
      else ⟨copied, fills ++ [], .wild⟩ := by
  have hfat : ¬ ascii "fs/fat" <+: ascii "fs/ram" ++ rest := by
    rintro ⟨more, h⟩
    simp [ascii] at h
  have hram : ascii "fs/ram" <+: ascii "fs/ram" ++ rest := List.prefix_append _ _
  have hdrop : (ascii "/dev/fs/ram" ++ rest).drop 5 = ascii "fs/ram" ++ rest := rfl
  have hdrop' : (ascii "fs/ram" ++ rest).drop 6 = rest := rfl
  have hlen : (ascii "fs/ram").length = 6 := rfl
  have hlen' : (ascii "fat/ram").length = 7 := rfl
  rw [openDev, hdrop, fatSupport]
  dsimp only
  rw [if_neg hfat, if_pos hram, hdrop', List.length_append, List.length_append, hlen, hlen']
  cases room.temp with
  | true =>
    have h7 : 6 + rest.length + 1 = rest.length + 7 := by omega
    have h13 : 5 + (7 + rest.length) + 1 = rest.length + 13 := by omega
    rw [h7, h13]
    rfl
  | false => rfl

/-- A name of another kind stays as it is. -/
theorem openDev_other {n l m : ℕ} {f : List Fill} (rest : CStr) (hfat : ¬ ascii "fs/fat" <+: rest)
    (hram : ¬ ascii "fs/ram" <+: rest) :
    openDev room n l m f (ascii "/dev/" ++ rest) =
      ⟨n, f ++ [], .handed (ascii "/dev/" ++ rest) (some rest)⟩ := by
  have hdrop : (ascii "/dev/" ++ rest).drop 5 = rest := rfl
  rw [openDev, hdrop, fatSupport]
  dsimp only
  rw [if_neg hfat, if_neg hram]

/-- A path that begins otherwise. -/
theorem kept_plain (hdev : ¬ ascii "/dev/" <+: path) (h : ¬ Bracketed path) : Kept path name := by
  refine ⟨fun rest hrest => absurd ?_ hdev, fun rest hrest => absurd ?_ hdev, fun hb => absurd hb h⟩
  · exact ⟨ascii "fs/fat" ++ rest, by rw [hrest]; rfl⟩
  · exact ⟨ascii "fs/ram" ++ rest, by rw [hrest]; rfl⟩

/-- The names of file systems in what is handed on are no beginnings of one another. -/
theorem handedNames_unique {a b x y : CStr} (ha : a ∈ handedNames) (hb : b ∈ handedNames)
    (h : a ++ x = b ++ y) : a = b ∧ x = y := by
  simp only [handedNames, List.mem_cons, List.not_mem_nil, or_false] at ha hb
  rcases ha with rfl | rfl | rfl <;> rcases hb with rfl | rfl | rfl
  all_goals first
    | exact ⟨rfl, List.append_cancel_left h⟩
    | simp [ascii] at h

/-- **A path in brackets keeps its file part** exactly if there is no `/` in the bracket. -/
theorem kept_bracket {fsname letter : CStr} (hbracket : Bracketed path)
    (hpath : path = path.takeWhile (· != 41) ++ 41 :: behindBracket path)
    (hnext : behindBracket path = [] ∨ (behindBracket path).head? = some 47)
    (h : strchr path 47 = some (47 :: filepath)) (hfs : fsname ∈ handedNames)
    (hletter : letter.length ≤ 1) :
    Kept path (ascii "/dev/" ++ (fsname ++ (bracketDev path ++ (letter ++ 47 :: filepath)))) ↔
      47 ∉ path.takeWhile (· != 41) := by
  obtain ⟨hout, hin⟩ := filepath_behind hpath hnext h
  constructor
  · rintro ⟨-, -, hkept⟩ hmem
    obtain ⟨fsname', hfs', letter', hletter', heq⟩ := hkept hbracket
    obtain ⟨-, heq⟩ := handedNames_unique hfs hfs' (List.append_cancel_left heq)
    have hlen := congrArg List.length (List.append_cancel_left heq)
    rw [List.length_append, List.length_append, List.length_cons] at hlen
    have := hin hmem
    omega
  · intro hnone
    rw [← hout hnone]
    have hhead := hbracket.head
    refine ⟨fun rest hrest => ?_, fun rest hrest => ?_,
      fun _ => ⟨fsname, hfs, letter, hletter, rfl⟩⟩
    · rw [hrest] at hhead
      cases hhead
    · rw [hrest] at hhead
      cases hhead

/-! ## §5 Every path -/

/-- The copy of the path. -/
def copyFill (path : CStr) : Fill := ⟨path.length + 3, path.length + 3⟩

theorem wild_not_right {o : OpenPath} (h : o.result = .wild) : ¬ RestRight path o :=
  fun hright => hright.result h

/-- A name that is handed on from buffers that are not overrun. -/
theorem handed_right {dname : Option CStr} :
    RestRight path ⟨copied, fills, .handed name dname⟩ ↔
      (∀ f ∈ fills, f.upto ≤ f.size) ∧ Kept path name := by
  refine ⟨fun h => ⟨h.fills, h.kept name dname rfl⟩, fun h => ⟨Rewritten.noConfusion, h.1, ?_⟩⟩
  intro name' dname' heq
  cases heq
  exact h.2

/-- A path that begins with `/dev/` is rewritten inside the copy. -/
theorem dev_right (rest : CStr) (hpath : path = ascii "/dev/" ++ rest) :
    RestRight path (openDev room copied path.length (path.length + 3) [copyFill path] path) ↔
      (ascii "/dev/fs/fat" <+: path ∨ ascii "/dev/fs/ram" <+: path → room.temp) := by
  have hbracket := not_bracketed_of_dev hpath
  by_cases hfat : ascii "/dev/fs/fat" <+: path
  · obtain ⟨more, rfl⟩ := hfat
    have hlen : (ascii "/dev/fs/fat" ++ more).length = more.length + 11 := by
      rw [List.length_append, Nat.add_comm]
      rfl
    rw [openDev_fat, imp_iff_right (Or.inl (List.prefix_append _ _))]
    cases room.temp with
    | true =>
      rw [if_pos rfl, handed_right]
      refine iff_of_true ⟨?_, ?_, ?_, fun hb => absurd hb hbracket⟩ rfl
      · simp [copyFill, hlen]
      · intro rest' hrest'
        rw [List.append_cancel_left hrest']
      · intro rest' hrest'
        simp [ascii] at hrest'
    | false => exact iff_of_false (wild_not_right rfl) Bool.false_ne_true
  · by_cases hram : ascii "/dev/fs/ram" <+: path
    · obtain ⟨more, rfl⟩ := hram
      have hlen : (ascii "/dev/fs/ram" ++ more).length = more.length + 11 := by
        rw [List.length_append, Nat.add_comm]
        rfl
      rw [openDev_ram, imp_iff_right (Or.inr (List.prefix_append _ _))]
      cases room.temp with
      | true =>
        rw [if_pos rfl, handed_right]
        refine iff_of_true ⟨?_, ?_, ?_, fun hb => absurd hb hbracket⟩ rfl
        · simp [copyFill, hlen]
        · intro rest' hrest'
          simp [ascii] at hrest'
        · intro rest' hrest'
          rw [List.append_cancel_left hrest']
      | false => exact iff_of_false (wild_not_right rfl) Bool.false_ne_true
    · have hgrow : ∀ pre : CStr, ¬ ascii "/dev/" ++ pre <+: path → ¬ pre <+: rest :=
        fun pre hpre h => hpre (by rw [hpath]; exact (List.prefix_append_right_inj _).mpr h)
      have hother (n l m : ℕ) (f : List Fill) : openDev room n l m f path =
          ⟨n, f ++ [], .handed path (some rest)⟩ := by
        have h := @openDev_other room n l m f rest (hgrow (ascii "fs/fat") hfat)
          (hgrow (ascii "fs/ram") hram)
        rw [← hpath] at h
        exact h
      rw [hother, handed_right]
      refine iff_of_true ⟨by simp [copyFill], ?_, ?_, fun hb => absurd hb hbracket⟩ ?_
      · exact fun more hmore => absurd ⟨more, hmore.symm⟩ hfat
      · exact fun more hmore => absurd ⟨more, hmore.symm⟩ hram
      · exact fun h => absurd h (not_or.mpr ⟨hfat, hram⟩)

/-- A name on another file system is handed on as it is. -/
theorem bracket_other {fsname letter : CStr} {P : Prop} (hmem : fsname ∈ handedNames)
    (hfat : ¬ ascii "fs/fat" <+: fsname ++ letter) (hram : ¬ ascii "fs/ram" <+: fsname ++ letter)
    (hkept : Kept path (ascii "/dev/" ++ (fsname ++ letter)) ↔ P)
    (hlt : (ascii "/dev/" ++ (fsname ++ letter)).length < 100) :
    RestRight path (openDev room copied size 100 [copyFill path,
        ⟨100, (ascii "/dev/" ++ (fsname ++ letter)).length + 1⟩]
        (ascii "/dev/" ++ (fsname ++ letter))) ↔ P := by
  rw [openDev_other _ hfat hram, handed_right, hkept]
  refine and_iff_right fun f hf => ?_
  simp only [List.append_nil, List.mem_cons, List.not_mem_nil, or_false] at hf
  rcases hf with rfl | rfl
  · exact Nat.le_refl _
  · exact hlt

/-- A path in brackets, once it is transformed. -/
theorem bracket_right (hnul : 0 ∉ path) (hbracket : Bracketed path)
    (h : filenamePathTransform devices path = .path tname pdev slot) :
    RestRight path (openDev room copied tname.length 100
        [copyFill path, ⟨100, tname.length + 1⟩] tname) ↔
      47 ∉ path.takeWhile (· != 41) ∧
        (ascii "/dev/fs/fat" <+: tname → tname.length + 2 < 100 ∧ room.temp) := by
  obtain ⟨fsname, hfs, letter, filepath, hletter, hslash, htname, hlt, p1, hp1, hend⟩ :=
    transform_path h
  obtain ⟨hpath, hnext⟩ := transform_behind hnul hp1 hend
  have hkept : ∀ handed ∈ handedNames,
      (Kept path (ascii "/dev/" ++ (handed ++ (bracketDev path ++ (letter ++ 47 :: filepath)))) ↔
        47 ∉ path.takeWhile (· != 41)) := fun handed hmem =>
    kept_bracket hbracket hpath hnext hslash hmem hletter
  generalize hrest : bracketDev path ++ (letter ++ 47 :: filepath) = rest at hkept
  simp only [fsNames, List.mem_cons, List.not_mem_nil, or_false] at hfs
  rcases hfs with rfl | rfl | rfl
  · -- The name on a FAT file system grows by two.
    have heq : tname = ascii "/dev/fs/fat" ++ 64 :: rest := by
      rw [htname, ← hrest]
      simp [ascii]
    have hlen : tname.length = rest.length + 12 := by
      rw [heq, List.length_append, Nat.add_comm]
      rfl
    have hprefix : ascii "/dev/fs/fat" <+: tname := ⟨_, heq.symm⟩
    have hgrow := hkept (ascii "fat/disk@") (by simp [handedNames])
    rw [imp_iff_right hprefix, heq, openDev_fat, ← heq]
    cases room.temp with
    | true =>
      rw [if_pos rfl, handed_right, ← hgrow, and_comm]
      refine and_congr Iff.rfl ?_
      simp only [copyFill, List.cons_append, List.nil_append, List.forall_mem_cons,
        List.length_cons, hlen]
      constructor
      · rintro ⟨-, -, -, hfit, -⟩
        exact ⟨by omega, trivial⟩
      · rintro ⟨hfit, -⟩
        exact ⟨by omega, by omega, by omega, by omega, fun f hf => absurd hf List.not_mem_nil⟩
    | false => exact iff_of_false (wild_not_right rfl) fun hright => Bool.false_ne_true hright.2.2
  · have heq : tname = ascii "/dev/" ++ (ascii "fs/ext2@" ++ rest) := by
      rw [htname, ← hrest]
      simp [ascii]
    have hnofat : ¬ ascii "/dev/fs/fat" <+: tname := by
      rintro ⟨more, hmore⟩
      rw [heq] at hmore
      simp [ascii] at hmore
    rw [and_iff_left fun hp => absurd hp hnofat, heq]
    have hmem : ascii "fs/ext2@" ∈ handedNames := by simp [handedNames]
    refine bracket_other hmem ?_ ?_ (hkept _ hmem) (heq ▸ hlt)
    · rintro ⟨more, hmore⟩
      simp [ascii] at hmore
    · rintro ⟨more, hmore⟩
      simp [ascii] at hmore
  · have heq : tname = ascii "/dev/" ++ (ascii "fs/iso9660@" ++ rest) := by
      rw [htname, ← hrest]
      simp [ascii]
    have hnofat : ¬ ascii "/dev/fs/fat" <+: tname := by
      rintro ⟨more, hmore⟩
      rw [heq] at hmore
      simp [ascii] at hmore
    rw [and_iff_left fun hp => absurd hp hnofat, heq]
    have hmem : ascii "fs/iso9660@" ∈ handedNames := by simp [handedNames]
    refine bracket_other hmem ?_ ?_ (hkept _ hmem) (heq ▸ hlt)
    · rintro ⟨more, hmore⟩
      simp [ascii] at hmore
    · rintro ⟨more, hmore⟩
      simp [ascii] at hmore

/-- **The rest of the rewriting** is right exactly when it fits. -/
theorem rest_right_iff (hnul : 0 ∉ path) :
    RestRight path (openPath devices room slotFree path) ↔
      RestFits devices room slotFree path := by
  rw [openPath]
  dsimp only
  by_cases hroom : room.fname = true
  · rw [if_neg (not_not_intro hroom)]
    cases slotFree with
    | false =>
      refine iff_of_true ⟨Rewritten.noConfusion, by simp, fun _ _ => Rewritten.noConfusion⟩
        ⟨hroom, ?_, ?_⟩
      · exact fun h => Bool.noConfusion h
      · exact fun h => Bool.noConfusion h
    | true =>
      rw [if_neg (by decide)]
      by_cases hdev : ascii "/dev/" <+: path
      · obtain ⟨rest, hrest⟩ := hdev
        rw [if_pos ⟨rest, hrest⟩]
        refine (dev_right rest hrest.symm).trans
          ⟨fun h => ⟨hroom, fun _ => h, ?_⟩, fun h => h.dev rfl⟩
        exact fun _ hb => absurd hb (not_bracketed_of_dev hrest.symm)
      · rw [if_neg hdev]
        have hnodev : ascii "/dev/fs/fat" <+: path ∨ ascii "/dev/fs/ram" <+: path →
            room.temp := fun h => absurd (dev_of_begins h) hdev
        have hplain : ¬ Bracketed path → RestFits devices room true path := fun hb =>
          ⟨hroom, fun _ => hnodev, fun _ h => absurd h hb⟩
        have hhanded : ¬ Bracketed path → ∀ name dname, (RestRight path
            ⟨path.length + 2 + 1, [⟨path.length + 2 + 1, path.length + 2 + 1⟩],
              .handed name dname⟩ ↔ RestFits devices room true path) := fun hb name dname =>
          iff_of_true (handed_right.mpr ⟨by simp, kept_plain hdev hb⟩) (hplain hb)
        by_cases hftp : strpat path (ascii "*ftp://*") = true
        · rw [if_pos hftp]
          exact hhanded (fun hb => Bool.false_ne_true (hb.ftp.symm.trans hftp)) _ _
        rw [if_neg hftp]
        by_cases hfile : strpat path (ascii "file://*") = true
        · rw [if_pos hfile]
          exact hhanded (fun hb => Bool.false_ne_true (hb.file.symm.trans hfile)) _ _
        rw [if_neg hfile]
        by_cases hhttp : strpat path (ascii "http://*") = true
        · rw [if_pos hhttp]
          exact hhanded (fun hb => Bool.false_ne_true (hb.http.symm.trans hhttp)) _ _
        rw [if_neg hhttp]
        by_cases hnfs : strpat path (ascii "nfs://*") = true
        · rw [if_pos hnfs]
          exact hhanded (fun hb => Bool.false_ne_true (hb.nfs.symm.trans hnfs)) _ _
        rw [if_neg hnfs]
        by_cases hhead : path.head? = some 40
        · rw [if_pos hhead]
          have hb : Bracketed path := ⟨hhead, Bool.eq_false_of_not_eq_true hftp,
            Bool.eq_false_of_not_eq_true hfile, Bool.eq_false_of_not_eq_true hhttp,
            Bool.eq_false_of_not_eq_true hnfs⟩
          cases ht : filenamePathTransform devices path with
          | wild => exact iff_of_false (wild_not_right rfl) fun h => (h.bracket rfl hb).1 ht
          | fail =>
            refine iff_of_true ⟨Rewritten.noConfusion, by simp, fun _ _ => Rewritten.noConfusion⟩
              ⟨hroom, fun _ => hnodev, fun _ _ => ⟨?_, fun _ _ _ h => ?_⟩⟩
            · rw [ht]
              exact Transformed.noConfusion
            · rw [ht] at h
              cases h
          | path tname pdev slot =>
            refine (bracket_right hnul hb ht).trans
              ⟨fun h => ⟨hroom, fun _ => hnodev, fun _ _ => ⟨?_, fun _ _ _ h' => ?_⟩⟩,
                fun h => (h.bracket rfl hb).2 _ _ _ ht⟩
            · rw [ht]
              exact Transformed.noConfusion
            · rw [ht] at h'
              cases h'
              exact h
        · rw [if_neg hhead]
          exact hhanded (fun hb => hhead hb.head) _ _
  · rw [if_pos hroom]
    exact iff_of_false (wild_not_right rfl) fun h => hroom h.fname

theorem openDev_copied : (openDev room copied fnamelen size fills name).copied = copied := by
  rw [openDev]
  split <;> rfl

/-- The copy takes two bytes more than the path has with the zero at its end. -/
theorem openPath_copied : (openPath devices room slotFree path).copied = path.length + 3 := by
  rw [openPath]
  dsimp only
  repeat' split
  all_goals first
    | rfl
    | exact openDev_copied

/-- **No path is rewritten as it should be**: two bytes behind each are read.  The rest is right
    exactly when it fits. -/
theorem openPath_exact (devices : List DeviceDisk) (room : Room) (slotFree : Bool) (path : CStr)
    (hnul : 0 ∉ path) :
    ¬ OpenRight path (openPath devices room slotFree path) ∧
      (RestRight path (openPath devices room slotFree path) ↔
        RestFits devices room slotFree path) := by
  refine ⟨fun h => ?_, rest_right_iff hnul⟩
  have hcopied := h.copied
  rw [openPath_copied] at hcopied
  omega

/-- A disk with a FAT file system. -/
def fatDisk : DeviceDisk := ⟨ascii "usb0", .fat, []⟩

/-- `/dev/fs/fat@usb0a/vmlinux` is read with two bytes behind it; of `(usb0,0)` a file part is read
    through a null pointer. -/
theorem openPath_short :
    ¬ OpenRight (ascii "/dev/fs/fat@usb0a/vmlinux")
        (openPath [fatDisk] ⟨true, true⟩ true (ascii "/dev/fs/fat@usb0a/vmlinux")) ∧
      filenamePathTransform [fatDisk] (ascii "(usb0,0)") = .wild := by
  refine ⟨fun h => ?_, by decide⟩
  have hcopied := h.copied
  rw [openPath_copied] at hcopied
  omega

/-- What is right with `/dev/fs/fat@usb0a/vmlinux`. -/
theorem openPath_exact_fat :
    ¬ OpenRight (ascii "/dev/fs/fat@usb0a/vmlinux")
        (openPath [fatDisk] ⟨true, true⟩ true (ascii "/dev/fs/fat@usb0a/vmlinux")) ∧
      RestRight (ascii "/dev/fs/fat@usb0a/vmlinux")
        (openPath [fatDisk] ⟨true, true⟩ true (ascii "/dev/fs/fat@usb0a/vmlinux")) := by
  obtain ⟨hwrong, hrest⟩ := openPath_exact [fatDisk] ⟨true, true⟩ true
    (ascii "/dev/fs/fat@usb0a/vmlinux") (by decide)
  exact ⟨hwrong, hrest.mpr ⟨rfl, fun _ _ => rfl, fun _ hb => absurd hb.head (by decide)⟩⟩

end Pmon.Fs
