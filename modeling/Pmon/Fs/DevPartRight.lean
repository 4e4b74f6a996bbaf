import Pmon.Fs.DevPart
import Pmon.Libc.ParseUrl

/-!
# Which partition a path leads to

The path `(dev,n)/file` should lead to entry `n` of the MBR of `dev`, by the file system that was
detected there.  `filename_path_transform` takes the type from slot `n` of a table without gaps, or
from the only slot.

## Key results

- `devPartOpen_spec`: what a table holds, in the words of the MBR.
- `filenamePathTransform_path`: how a path of the form `(dev,n)/file` is read.
- `transform_exact`: exactly which disks, numbers and files give a failure or the right path.
- `slot_gapless`: slot `n` stands for entry `n` where no entry in front is unused.
- `gap_wrongType`: with a gap in front, the type of another partition is taken.
-/

namespace Pmon.Fs

open Pmon.Lib Pmon.Libc

/-! ## §1 What it is for -/

/-- The sector with the MBR. -/
def bootRecord (disk : DiskDevice) : Option Mem :=
  if disk.buffers then
    (disk.read 0 mbrSectorSize).filter fun lead => lead 510 = 0x55 ∧ lead 511 = 0xaa
  else none

/-- A disk that is taken for a CD. -/
def isCd (disk : DiskDevice) : Bool :=
  ¬ascii "loopdev" <+: disk.name ∧ disk.opens ∧
    (ascii "cd" <+: disk.name ∨ (ascii "usb" <+: disk.name ∧ devPartDetect disk = 1))

/-- A disk whose MBR is looked at. -/
def asked (disk : DiskDevice) : Bool :=
  ¬ascii "loopdev" <+: disk.name ∧ disk.opens ∧ ¬ascii "cd" <+: disk.name ∧
    (ascii "usb" <+: disk.name → devPartDetect disk = 0)

/-- The type that is detected for an entry. -/
def detectedType (disk : DiskDevice) (lead : Mem) (i : ℕ) : Option FsType :=
  (probeTag disk (entryTag lead i) (entryOffset lead i)).map tagFstype

/-- The entries of the MBR that are in use, as far as there is memory for them. -/
def entries (disk : DiskDevice) (lead : Mem) : List ℕ :=
  (List.range 4).filter fun i => entryUsed lead i ∧ disk.room i

/-- The partitions of a disk: the number in the MBR, and the type detected.  There is none where a
    block cannot be read; a disk without entries that begins like a FAT file system is one
    partition. -/
def partitions (disk : DiskDevice) : List (ℕ × FsType) :=
  if asked disk then
    match bootRecord disk with
    | none => []
    | some lead =>
      match (entries disk lead).mapM fun i => (detectedType disk lead i).map (i, ·) with
      | none => []
      | some [] => if lead 0 = 0xEB ∧ lead 2 = 0x90 then [(0, .fat)] else []
      | some ps => ps
  else []

/-- A file system that files are loaded from. -/
def fsName : FsType → Option CStr
  | .ext2 => some (ascii "ext2")
  | .fat => some (ascii "fat")
  | _ => none

/-- `(dev,n)/file`; the name of a device has none of the characters around it. -/
structure DevPath where
  dev : CStr
  n : ℕ
  file : CStr
  dev_plain : ∀ c ∈ dev, c ≠ 44 ∧ c ≠ 41 ∧ c ≠ 47

/-- The path itself. -/
def DevPath.text (p : DevPath) : CStr := 40 :: p.dev ++ 44 :: numeral 10 p.n ++ 41 :: 47 :: p.file

/-- The path that names partition `n` and a file system. -/
def DevPath.named (p : DevPath) (fsname : CStr) : CStr :=
  ascii "/dev/fs/" ++ fsname ++ 64 :: (p.dev ++ [UInt8.ofNat (97 + p.n)]) ++ 47 :: p.file

/-- The disks of the board; no two have one name. -/
structure Board where
  disks : List DiskDevice
  names : (disks.map DiskDevice.name).Nodup

/-- It fails, or the path names partition `n` of that disk with the type that was detected there,
    and this is what was looked up. -/
def Leads (board : Board) (p : DevPath) (out : Transformed) : Prop :=
  out = .fail ∨
    ∃ disk ∈ board.disks, disk.name = p.dev ∧ ∃ pdev slot t fsname,
      devPartOpen disk = some pdev ∧ (partitions disk)[slot]? = some (p.n, t) ∧
        fsName t = some fsname ∧ out = .path (p.named fsname) pdev slot

/-! ## §2 When it is right -/

/-- The first digit of a number. -/
def firstDigit (n : ℕ) : ℕ := ((numeral 10 n).headD 48).toNat - 48

/-- The slot that a path leads to. -/
def slotOf (ps : List (ℕ × FsType)) (n : ℕ) : ℕ := if ps.length = 1 then 0 else firstDigit n

/-- A disk has no partition that is offered, or the slot stands for entry `n` of the disk that is
    meant, and the path fits; or no file is loaded from its type. -/
def Serves (disk : DiskDevice) (p : DevPath) : Prop :=
  partitions disk = [] ∨
    ∃ k t, (partitions disk)[slotOf (partitions disk) p.n]? = some (k, t) ∧
      ∀ fsname, fsName t = some fsname →
        k = p.n ∧ disk.name = p.dev ∧ (p.named fsname).length < 100

/-- The condition: the file's name is short enough, and the first disk whose name the device's name
    begins with is no CD and serves the path. -/
def Straight (board : Board) (p : DevPath) : Prop :=
  19 ≤ p.dev.length ∨
    (p.file.length < 100 ∧ ∀ disk, board.disks.find? (·.name <+: p.dev) = some disk →
      isCd disk = false ∧ Serves disk p)

/-! ## §3 The table -/

variable {disk : DiskDevice} {lead : Mem} {pdev : DeviceDisk}

theorem length_mapM {α β : Type*} {f : α → Option β} {as : List α} {bs : List β}
    (h : as.mapM f = some bs) : bs.length = as.length := by
  induction as generalizing bs with
  | nil =>
    obtain rfl : [] = bs := by simpa using h
    rfl
  | cons a as ih =>
    simp only [List.mapM_cons, Option.bind_eq_bind, Option.bind_eq_some_iff] at h
    obtain ⟨b, -, bs', has, hbs⟩ := h
    obtain rfl : b :: bs' = bs := by simpa using hbs
    rw [List.length_cons, List.length_cons, ih has]

theorem exists_of_mem_mapM {α β : Type*} {f : α → Option β} {as : List α} {bs : List β}
    (h : as.mapM f = some bs) {b : β} (hb : b ∈ bs) : ∃ a ∈ as, f a = some b := by
  induction as generalizing bs with
  | nil =>
    obtain rfl : [] = bs := by simpa using h
    exact absurd hb List.not_mem_nil
  | cons a as ih =>
    simp only [List.mapM_cons, Option.bind_eq_bind, Option.bind_eq_some_iff] at h
    obtain ⟨b', ha, bs', has, hbs⟩ := h
    obtain rfl : b' :: bs' = bs := by simpa using hbs
    rcases List.mem_cons.mp hb with rfl | hb
    · exact ⟨a, List.mem_cons_self, ha⟩
    · obtain ⟨a', ha', hf⟩ := ih has hb
      exact ⟨a', List.mem_cons_of_mem a ha', hf⟩

/-- **The loop over the entries**: the table gets the types of the entries in use, in order. -/
theorem entriesLoop_spec (is : List ℕ) (id : ℕ) (table : List DiskPartitionTable)
    (hroom : table.length + is.length < maxParts) :
    match (is.filter fun i => entryUsed lead i ∧ disk.room i).mapM (detectedType disk lead) with
    | none => (entriesLoop disk lead is id table).1 = false
    | some ts => (entriesLoop disk lead is id table).1 = true ∧
        (entriesLoop disk lead is id table).2.map DiskPartitionTable.partFstype =
          table.map DiskPartitionTable.partFstype ++ ts := by
  induction is generalizing id table with
  | nil => simp [entriesLoop]
  | cons i is ih =>
    rw [List.length_cons] at hroom
    rw [entriesLoop]
    cases hused : entryUsed lead i with
    | false =>
      simp only [hused, Bool.false_eq_true, false_and, decide_false, not_false_eq_true,
        List.filter_cons_of_neg, if_false]
      exact ih (id + 1) table (by omega)
    | true =>
      cases hmem : disk.room i with
      | false =>
        simp only [hused, hmem, Bool.false_eq_true, and_false, decide_false, not_false_eq_true,
          List.filter_cons_of_neg, if_false, if_true]
        exact ih id table (by omega)
      | true =>
        simp only [hused, hmem, and_self, decide_true, List.filter_cons_of_pos, if_true,
          List.mapM_cons, detectedType]
        cases hprobe : probeTag disk (entryTag lead i) (entryOffset lead i) with
        | none => simp
        | some tag =>
          have hnext := ih (id + 1) (table ++ [entryRecord lead i id tag]) (by simp; omega)
          have hlen : ¬maxParts ≤ (table ++ [entryRecord lead i id tag]).length := by
            rw [List.length_append, List.length_singleton]
            omega
          simp only [hlen, if_false, Option.map_some, Option.bind_eq_bind, Option.bind_some]
          cases hrest : (is.filter fun i => entryUsed lead i ∧ disk.room i).mapM
              (detectedType disk lead) with
          | none =>
            rw [hrest] at hnext
            simpa using hnext
          | some ts =>
            rw [hrest] at hnext
            simpa [entryRecord] using hnext

/-- Numbers beside the types. -/
theorem mapM_number {α β : Type*} (f : α → Option β) (is : List α) :
    (is.mapM fun i => (f i).map (i, ·)) = (is.mapM f).map is.zip := by
  induction is with
  | nil => rfl
  | cons i is ih =>
    simp only [List.mapM_cons, ih]
    cases f i with
    | none => rfl
    | some b => cases is.mapM f <;> rfl

/-- **The table** of a disk whose MBR is looked at. -/
theorem readTable_spec {cnt : ℤ} {table : List DiskPartitionTable}
    (h : readPrimaryPartTable disk = some (cnt, table)) (hasked : asked disk = true) :
    (cnt ≤ 0 ∧ partitions disk = []) ∨
      (0 < cnt ∧ partitions disk ≠ [] ∧
        table.map DiskPartitionTable.partFstype = (partitions disk).map Prod.snd) := by
  rw [readPrimaryPartTable] at h
  rw [partitions, if_pos hasked, bootRecord]
  cases hbuf : disk.buffers with
  | false =>
    obtain ⟨rfl, -⟩ : -1 = cnt ∧ [] = table := by simpa [hbuf] using h
    exact .inl ⟨by decide, by simp⟩
  | true =>
    simp only [hbuf, not_true_eq_false, if_false, if_true] at h ⊢
    cases hlead : disk.read 0 mbrSectorSize with
    | none =>
      obtain ⟨rfl, -⟩ : -1 = cnt ∧ [] = table := by simpa [hlead] using h
      exact .inl ⟨by decide, rfl⟩
    | some lead =>
      simp only [hlead] at h
      by_cases hsig : lead 510 = 0x55 ∧ lead 511 = 0xaa
      · have hfilter : (some lead).filter (fun lead => lead 510 = 0x55 ∧ lead 511 = 0xaa) =
            some lead := by simp [Option.filter, hsig]
        rw [if_neg (by simp [hsig])] at h
        simp only [hfilter, mapM_number]
        have hloop := @entriesLoop_spec disk lead (List.range 4) 1 [] (by decide)
        cases htypes : (entries disk lead).mapM (detectedType disk lead) with
        | none =>
          rw [entries] at htypes
          simp only [htypes] at hloop
          rw [← Prod.eta (entriesLoop disk lead (List.range 4) 1 []), hloop] at h
          obtain ⟨rfl, -⟩ : 0 = cnt ∧ _ := by simpa using h
          exact .inl ⟨le_refl _, rfl⟩
        | some ts =>
          have hlen := length_mapM htypes
          rw [entries] at htypes
          simp only [htypes, List.map_nil, List.nil_append] at hloop
          obtain ⟨hdone, hmap⟩ := hloop
          rw [← Prod.eta (entriesLoop disk lead (List.range 4) 1 []), hdone] at h
          generalize (entriesLoop disk lead (List.range 4) 1 []).2 = table' at h hmap
          cases table' with
          | nil =>
            -- the second chance
            obtain rfl : ts = [] := by simpa using hmap.symm
            have hnone : entries disk lead = [] := List.eq_nil_of_length_eq_zero hlen.symm
            simp only [hnone, Option.map_some, List.zip_nil_right]
            simp only at h
            split_ifs at h with hwhole hmem
            · obtain ⟨rfl, rfl⟩ : 1 = cnt ∧ [wholeRecord] = table := by simpa using h
              refine .inr ⟨by decide, ?_, ?_⟩ <;> rw [if_pos hwhole]
              · exact List.cons_ne_nil _ _
              · rfl
            · obtain ⟨rfl, -⟩ : 0 = cnt ∧ _ := by simpa using h
              exact .inl ⟨le_refl _, if_neg hwhole⟩
          | cons part parts =>
            obtain ⟨rfl, rfl⟩ : ((part :: parts).length : ℤ) = cnt ∧ part :: parts = table := by
              simpa using h
            have hzip : ((entries disk lead).zip ts).map Prod.snd = ts :=
              List.map_snd_zip hlen.le
            have hps : (entries disk lead).zip ts ≠ [] := by
              intro hnil
              rw [hnil] at hzip
              rw [← hzip] at hmap
              exact absurd hmap (by simp)
            simp only [Option.map_some]
            cases hcase : (entries disk lead).zip ts with
            | nil => exact absurd hcase hps
            | cons q qs =>
              refine .inr ⟨by rw [List.length_cons]; omega, List.cons_ne_nil _ _, ?_⟩
              rw [hmap, ← hzip, hcase]
      · rw [if_pos (by rwa [not_and_or] at hsig)] at h
        obtain ⟨rfl, -⟩ : -1 = cnt ∧ [] = table := by simpa using h
        refine .inl ⟨by decide, ?_⟩
        have hfilter : (some lead).filter (fun lead => lead 510 = 0x55 ∧ lead 511 = 0xaa) = none :=
          by simpa [Option.filter] using hsig
        rw [hfilter]

/-- What a record offers for partitions of these types. -/
def Offers (pdev : DeviceDisk) : List FsType → Prop
  | [] => pdev.devFstype = .unknown
  | [t] => pdev.devFstype = t
  | ts => pdev.devFstype = .compound ∧ pdev.part.map DiskPartitionTable.partFstype = ts

theorem tableDevice_spec (h : tableDevice disk = some pdev) (hasked : asked disk = true) :
    pdev.deviceName = disk.name ∧ Offers pdev ((partitions disk).map Prod.snd) := by
  rw [tableDevice, Option.map_eq_some_iff] at h
  obtain ⟨⟨cnt, table⟩, hread, rfl⟩ := h
  refine ⟨rfl, ?_⟩
  rcases readTable_spec hread hasked with ⟨hcnt, hnone⟩ | ⟨hcnt, hsome, htypes⟩
  · rw [hnone]
    exact if_pos hcnt
  · have hpos : ¬cnt ≤ 0 := by omega
    rw [← htypes]
    rcases table with - | ⟨part, - | ⟨part', parts⟩⟩
    · exact absurd (List.map_eq_nil_iff.mp htypes.symm) hsome
    · exact if_neg hpos
    · exact ⟨if_neg hpos, rfl⟩

theorem devPartDetect_mem (disk : DiskDevice) : devPartDetect disk ∈ [-1, 0, 1] := by
  unfold devPartDetect
  split
  · apply List.mem_cons_self
  · split
    · simp
    · split <;> simp

/-- **The record of a disk**, in the words of its MBR. -/
theorem devPartOpen_spec (h : devPartOpen disk = some pdev) :
    pdev.deviceName = disk.name ∧
      ((isCd disk = true ∧ pdev.devFstype = .iso9660) ∨
        (isCd disk = false ∧ Offers pdev ((partitions disk).map Prod.snd))) := by
  have hunasked : asked disk = false → isCd disk = false → pdev = ⟨disk.name, .unknown, []⟩ →
      pdev.deviceName = disk.name ∧
        ((isCd disk = true ∧ pdev.devFstype = .iso9660) ∨
          (isCd disk = false ∧ Offers pdev ((partitions disk).map Prod.snd))) := by
    rintro hasked hcd rfl
    refine ⟨rfl, .inr ⟨hcd, ?_⟩⟩
    rw [partitions, if_neg (by simp [hasked])]
    rfl
  rw [devPartOpen] at h
  simp only at h
  split_ifs at h with hloop hopens hname husb
  · exact hunasked (by simp [asked, hloop]) (by simp [isCd, hloop]) (Option.some.inj h).symm
  · rw [← Option.some.inj h]
    exact ⟨rfl, .inl ⟨by simp_all [isCd], rfl⟩⟩
  · -- a disk on USB may be a CD
    split at h
    · rename_i hdetect
      exact hunasked (by simp [asked, hdetect, husb]) (by simp [isCd, hname, hdetect])
        (Option.some.inj h).symm
    · rename_i hdetect
      rw [← Option.some.inj h]
      exact ⟨rfl, .inl ⟨by simp_all [isCd], rfl⟩⟩
    · rename_i hno hyes
      have hdetect : devPartDetect disk = 0 := by
        have hmem := devPartDetect_mem disk
        simp only [List.mem_cons, List.not_mem_nil, or_false] at hmem
        exact (hmem.resolve_left hno).resolve_right hyes
      have hspec := tableDevice_spec h (by simp_all [asked])
      exact ⟨hspec.1, .inr ⟨by simp_all [isCd], hspec.2⟩⟩
  · have hspec := tableDevice_spec h (by simp_all [asked])
    exact ⟨hspec.1, .inr ⟨by simp_all [isCd], hspec.2⟩⟩
  · exact hunasked (by simp [asked, hopens]) (by simp [isCd, hopens]) (Option.some.inj h).symm

theorem tagFstype_plain (tag : UInt8) : tagFstype tag ≠ .iso9660 ∧ tagFstype tag ≠ .compound := by
  unfold tagFstype
  split_ifs <;> decide

/-- A partition has one of four numbers, and a type that a tag stands for. -/
theorem partitions_spec {k : ℕ} {t : FsType} (h : (k, t) ∈ partitions disk) :
    k < 4 ∧ t ≠ .iso9660 ∧ t ≠ .compound := by
  unfold partitions at h
  split at h
  · split at h
    · exact absurd h List.not_mem_nil
    · split at h
      · exact absurd h List.not_mem_nil
      · split_ifs at h
        · obtain ⟨rfl, rfl⟩ : k = 0 ∧ t = .fat := by simpa using h
          decide
        · exact absurd h List.not_mem_nil
      · rename_i hps
        obtain ⟨i, hi, hpair⟩ := exists_of_mem_mapM hps h
        obtain ⟨t', ht', hpair⟩ := Option.map_eq_some_iff.mp hpair
        obtain ⟨rfl, rfl⟩ := Prod.mk.inj hpair
        obtain ⟨tag, -, rfl⟩ := Option.map_eq_some_iff.mp ht'
        exact ⟨List.mem_range.mp (List.mem_of_mem_filter hi), tagFstype_plain tag⟩
  · exact absurd h List.not_mem_nil

theorem length_partitions (disk : DiskDevice) : (partitions disk).length ≤ 4 := by
  unfold partitions
  split
  · split
    · exact Nat.zero_le 4
    · split
      · exact Nat.zero_le 4
      · split_ifs <;> decide
      · rename_i hps
        rw [length_mapM hps]
        exact List.length_filter_le _ _
  · exact Nat.zero_le 4

/-- A CD has no partitions. -/
theorem partitions_of_cd (h : isCd disk = true) : partitions disk = [] := by
  have hasked : asked disk = false := by
    simp only [isCd, asked, decide_eq_true_eq, decide_eq_false_iff_not] at h ⊢
    grind
  rw [partitions, if_neg (by simp [hasked])]

/-- What is kept of a range stands at its own place where everything in front is kept. -/
theorem getElem_filter_range {q : ℕ → Bool} {m n : ℕ} :
    ((List.range m).filter q)[n]? = some n ↔ n < m ∧ ∀ i ≤ n, q i = true := by
  induction m with
  | zero => simp
  | succ m ih =>
    have hlen : ((List.range m).filter q).length ≤ m :=
      (List.length_filter_le _ _).trans List.length_range.le
    rw [List.range_succ, List.filter_append]
    rcases Nat.lt_or_ge n ((List.range m).filter q).length with hlt | hge
    · rw [List.getElem?_append_left hlt, ih]
      exact and_congr_left fun _ => by omega
    · rw [List.getElem?_append_right hge]
      -- only the last number can be there, and then all others are
      have hall : ((List.range m).filter q).length = m ↔ ∀ i < m, q i = true := by
        conv_lhs => rhs; rw [← @List.length_range m]
        rw [List.length_filter_eq_length_iff]
        simp
      constructor
      · intro hget
        cases hqm : q m with
        | false => simp [hqm] at hget
        | true =>
          rw [List.filter_cons_of_pos hqm, List.filter_nil] at hget
          obtain rfl : m = n := by
            have hmem := List.mem_of_getElem? hget
            simpa [eq_comm] using hmem
          refine ⟨Nat.lt_succ_self m, fun i hi => ?_⟩
          rcases Nat.lt_or_eq_of_le hi with hlt | rfl
          · exact hall.mp (by
              have := (List.getElem?_eq_some_iff.mp hget).1
              rw [List.length_singleton] at this
              omega) i hlt
          · exact hqm
      · rintro ⟨hn, hq⟩
        have hnm : n = m := by
          by_contra hne
          have hin := ih.mpr ⟨by omega, hq⟩
          exact absurd (List.getElem?_eq_some_iff.mp hin).1 (by omega)
        subst hnm
        have hfull := hall.mpr fun i hi => hq i hi.le
        rw [hfull, Nat.sub_self, List.filter_cons_of_pos (hq n le_rfl)]
        rfl

/-- **A slot and its entry**: slot `n` of a table stands for entry `n` of the MBR exactly where all
    entries in front are in use. -/
theorem slot_gapless {n k : ℕ} {t : FsType} (hasked : asked disk = true)
    (hlead : bootRecord disk = some lead) (hentries : entries disk lead ≠ [])
    (hslot : (partitions disk)[n]? = some (k, t)) : k = n ↔ ∀ i ≤ n, i ∈ entries disk lead := by
  have hfirst : (partitions disk).map Prod.fst = entries disk lead := by
    rw [partitions, if_pos hasked, hlead] at hslot ⊢
    simp only [mapM_number] at hslot ⊢
    cases htypes : (entries disk lead).mapM (detectedType disk lead) with
    | none => simp [htypes] at hslot
    | some ts =>
      have hlen := length_mapM htypes
      have hzip : ((entries disk lead).zip ts).map Prod.fst = entries disk lead :=
        List.map_fst_zip hlen.ge
      rw [Option.map_some]
      cases hcase : (entries disk lead).zip ts with
      | nil => exact absurd (by rw [← hzip, hcase]; rfl) hentries
      | cons q qs => rw [← hzip, hcase]
  have hget : (entries disk lead)[n]? = some k := by
    rw [← hfirst, List.getElem?_map, hslot, Option.map_some]
  have hmem : ∀ i, i ∈ entries disk lead ↔ i < 4 ∧ (entryUsed lead i ∧ disk.room i) := fun i => by
    simp [entries]
  have hrange := @getElem_filter_range (fun i => entryUsed lead i ∧ disk.room i) 4 n
  rw [← entries, hget, Option.some.injEq] at hrange
  rw [hrange]
  simp only [hmem, decide_eq_true_eq]
  constructor
  · rintro ⟨hn, hall⟩ i hi
    exact ⟨by omega, hall i hi⟩
  · exact fun hall => ⟨(hall n le_rfl).1, fun i hi => (hall i hi).2⟩

/-! ## §4 Names -/

/-- The device that is found is made of the disk that its name leads to. -/
theorem findDevice_eq {disks : List DiskDevice} {devices : List DeviceDisk}
    (h : devicesInit disks = some devices) (dev : CStr) :
    findDevice devices dev = (disks.find? (·.name <+: dev)).bind devPartOpen := by
  induction disks generalizing devices with
  | nil =>
    obtain rfl : [] = devices := by simpa [devicesInit] using h
    rfl
  | cons disk disks ih =>
    simp only [devicesInit, List.mapM_cons, Option.bind_eq_bind, Option.bind_eq_some_iff] at h
    obtain ⟨pdev, hopen, devices', hrest, hcons⟩ := h
    obtain rfl : pdev :: devices' = devices := by simpa using hcons
    have hname := (devPartOpen_spec hopen).1
    rw [findDevice, List.find?_cons, List.find?_cons, hname]
    cases hprefix : decide (disk.name <+: dev) with
    | true => exact hopen.symm
    | false => exact ih hrest

theorem strchr_append {pre rest : CStr} {c : UInt8} (h : ∀ b ∈ pre, b ≠ c) :
    strchr (pre ++ c :: rest) c = some (c :: rest) := by
  rw [strchr, List.dropWhile_append_of_pos fun b hb => by simpa using h b hb]
  simp

theorem strchr_eq_none {s : CStr} {c : UInt8} (h : ∀ b ∈ s, b ≠ c) : strchr s c = none := by
  rw [strchr, List.dropWhile_eq_nil_iff.mpr fun b hb => by simpa using h b hb]

theorem isdigit_bounds {c : UInt8} (h : isdigit c = true) : 48 ≤ c.toNat ∧ c.toNat ≤ 57 := by
  simpa [isdigit, UInt8.le_iff_toNat_le] using h

/-- The numeral of a number begins with its first digit. -/
theorem numeral_eq_cons (n : ℕ) :
    ∃ c ds, numeral 10 n = c :: ds ∧ c.toNat = 48 + firstDigit n ∧ firstDigit n ≤ 9 := by
  cases hnum : numeral 10 n with
  | nil =>
    rw [numeral] at hnum
    split_ifs at hnum with hzero
    rw [List.reverse_eq_nil_iff, List.map_eq_nil_iff, Nat.digits_eq_nil_iff_eq_zero] at hnum
    exact absurd hnum hzero
  | cons c ds =>
    have hdigit := isdigit_bounds (isdigit_of_numeral (n := n) (c := c) (by simp [hnum]))
    refine ⟨c, ds, rfl, ?_⟩
    rw [firstDigit, hnum, List.headD_cons]
    omega

theorem firstDigit_of_lt {n : ℕ} (hn : n < 10) : firstDigit n = n := by
  interval_cases n <;> simp [firstDigit, numeral, digitChar]

/-- **How a path is read**: the name up to 18 bytes, the first digit, and a file name of less than
    100 bytes. -/
theorem filenamePathTransform_path (devices : List DeviceDisk) (p : DevPath) :
    ∃ id : UInt8, id.toNat = 48 + firstDigit p.n ∧
      filenamePathTransform devices p.text =
        if 19 ≤ p.dev.length then .fail
        else if 100 ≤ p.file.length then .wild else deviceName devices p.dev p.file id := by
  obtain ⟨id, ds, hnum, hid, -⟩ := numeral_eq_cons p.n
  refine ⟨id, hid, ?_⟩
  have hdigits : ∀ c ∈ id :: ds, c ≠ 44 ∧ c ≠ 41 ∧ c ≠ 47 := by
    intro c hc
    have hbounds := isdigit_bounds (isdigit_of_numeral (n := p.n) (c := c) (by rwa [hnum]))
    refine ⟨?_, ?_, ?_⟩ <;> rintro rfl <;> simp at hbounds
  have htext : p.text = (40 :: p.dev) ++ 44 :: (id :: ds ++ 41 :: 47 :: p.file) := by
    simp [DevPath.text, hnum]
  have hcomma : strchr p.text 44 = some (44 :: (id :: ds ++ 41 :: 47 :: p.file)) := by
    rw [htext]
    refine strchr_append fun b hb => ?_
    rcases List.mem_cons.mp hb with rfl | hb
    · decide
    · exact (p.dev_plain b hb).1
  have hbracket : strchr p.text 41 = some (41 :: 47 :: p.file) := by
    have hsplit : p.text = (40 :: p.dev ++ 44 :: id :: ds) ++ 41 :: 47 :: p.file := by
      simp [htext]
    rw [hsplit]
    refine strchr_append fun b hb => ?_
    rcases List.mem_append.mp hb with hb | hb
    · rcases List.mem_cons.mp hb with rfl | hb
      · decide
      · exact (p.dev_plain b hb).2.1
    · rcases List.mem_cons.mp hb with rfl | hb
      · decide
      · exact (hdigits b hb).2.1
  have hslash : strchr p.text 47 = some (47 :: p.file) := by
    have hsplit : p.text = (40 :: p.dev ++ 44 :: id :: ds ++ [41]) ++ 47 :: p.file := by
      simp [htext]
    rw [hsplit]
    refine strchr_append fun b hb => ?_
    rcases List.mem_append.mp hb with hb | hb
    · rcases List.mem_append.mp hb with hb | hb
      · rcases List.mem_cons.mp hb with rfl | hb
        · decide
        · exact (p.dev_plain b hb).2.2
      · rcases List.mem_cons.mp hb with rfl | hb
        · decide
        · exact (hdigits b hb).2.2
    · rw [List.mem_singleton.mp hb]
      decide
  rw [filenamePathTransform, hcomma, hbracket]
  simp only [hslash]
  have hhead : p.text.getD 0 0 = 40 := by rw [htext]; rfl
  rw [if_neg (by rw [hhead]; decide), if_neg (by simp)]
  have htail : p.text.drop 1 = p.dev ++ 44 :: (id :: ds ++ 41 :: 47 :: p.file) := by rw [htext]; rfl
  rw [htail]
  by_cases hlong : 19 ≤ p.dev.length
  · -- no comma within the first 19 bytes
    rw [if_pos hlong, List.take_append_of_le_length hlong,
      strchr_eq_none fun b hb => (p.dev_plain b (List.mem_of_mem_take hb)).1]
  · obtain ⟨k, hk⟩ : ∃ k, 19 - p.dev.length = k + 1 := ⟨18 - p.dev.length, by omega⟩
    have htake : (p.dev ++ 44 :: (id :: ds ++ 41 :: 47 :: p.file)).take 19 =
        p.dev ++ 44 :: (id :: ds ++ 41 :: 47 :: p.file).take k := by
      rw [List.take_append, List.take_of_length_le (by omega), hk, List.take_succ_cons]
    have hdev : (p.dev ++ 44 :: (id :: ds ++ 41 :: 47 :: p.file).take k).takeWhile (· != 44) =
        p.dev := by
      rw [List.takeWhile_append_of_pos fun b hb => by simpa using (p.dev_plain b hb).1]
      simp
    rw [if_neg hlong, htake, strchr_append fun b hb => (p.dev_plain b hb).1, hdev]
    rfl

/-! ## §5 When it is right -/

variable {board : Board} {p : DevPath} {slot k : ℕ} {t : FsType}

theorem devicesInit_mem {disks : List DiskDevice} {devices : List DeviceDisk}
    (h : devicesInit disks = some devices) (hdisk : disk ∈ disks) :
    ∃ pdev, devPartOpen disk = some pdev := by
  induction disks generalizing devices with
  | nil => exact absurd hdisk List.not_mem_nil
  | cons d disks ih =>
    simp only [devicesInit, List.mapM_cons, Option.bind_eq_bind, Option.bind_eq_some_iff] at h
    obtain ⟨pdev, hopen, devices', hrest, -⟩ := h
    rcases List.mem_cons.mp hdisk with rfl | hdisk
    · exact ⟨pdev, hopen⟩
    · exact ih hrest hdisk

/-- A path that is made of the record of a disk. -/
theorem leads_path (hdisk : disk ∈ board.disks) (hopen : devPartOpen disk = some pdev)
    (tname : CStr) :
    Leads board p (.path tname pdev slot) ↔
      disk.name = p.dev ∧ ∃ t fsname, (partitions disk)[slot]? = some (p.n, t) ∧
        fsName t = some fsname ∧ tname = p.named fsname := by
  constructor
  · rintro (hfail | ⟨disk', hdisk', hname, pdev', slot', t, fsname, hopen', hslot, hfs, hout⟩)
    · exact absurd hfail (by simp)
    · obtain ⟨rfl, rfl, rfl⟩ := Transformed.path.inj hout
      -- the record tells the disk by its name
      have hsame : disk'.name = disk.name := by
        rw [← (devPartOpen_spec hopen).1, ← (devPartOpen_spec hopen').1]
      obtain rfl := List.inj_on_of_nodup_map board.names hdisk' hdisk hsame
      exact ⟨hname, t, fsname, hslot, hfs, rfl⟩
  · rintro ⟨hname, t, fsname, hslot, hfs, rfl⟩
    exact .inr ⟨disk, hdisk, hname, pdev, slot, t, fsname, hopen, hslot, hfs, rfl⟩

theorem leads_fail : Leads board p .fail := .inl rfl

theorem not_leads_wild : ¬Leads board p .wild := by
  simp [Leads]

/-- A path with the type of a slot is right exactly where the slot stands for entry `n` of the disk
    that is meant, and the path fits. -/
theorem leads_putName (hdisk : disk ∈ board.disks) (hopen : devPartOpen disk = some pdev)
    (hslot : (partitions disk)[slot]? = some (k, t)) {fsname : CStr}
    (hfs : fsName t = some fsname) :
    Leads board p
        (putName fsname (p.dev ++ [UInt8.ofNat (97 + firstDigit p.n)]) p.file pdev slot) ↔
      k = p.n ∧ disk.name = p.dev ∧ (p.named fsname).length < 100 := by
  have hlt := (partitions_spec (List.mem_of_getElem? hslot)).1
  have hlen : (ascii "/dev/fs/" ++ fsname ++ 64 :: (p.dev ++ [UInt8.ofNat (97 + firstDigit p.n)]) ++
      47 :: p.file).length = (p.named fsname).length := by
    simp [DevPath.named]
  rw [putName]
  simp only [hlen]
  split_ifs with hfits
  · rw [leads_path hdisk hopen]
    constructor
    · rintro ⟨hname, t', -, hslot', -, -⟩
      rw [hslot] at hslot'
      obtain ⟨rfl, -⟩ := Prod.mk.inj (Option.some.inj hslot')
      exact ⟨rfl, hname, hfits⟩
    · rintro ⟨rfl, hname, -⟩
      refine ⟨hname, t, fsname, hslot, hfs, ?_⟩
      rw [firstDigit_of_lt (by omega), DevPath.named]
  · exact iff_of_false not_leads_wild fun h => hfits h.2.2

/-- The outcome for a type that is looked up in a slot. -/
def typeOutcome (p : DevPath) (pdev : DeviceDisk) (slot : ℕ) (t : FsType) : Transformed :=
  match fsName t with
  | some fsname => putName fsname (p.dev ++ [UInt8.ofNat (97 + firstDigit p.n)]) p.file pdev slot
  | none => .fail

theorem leads_typeOutcome (hdisk : disk ∈ board.disks) (hopen : devPartOpen disk = some pdev)
    (hslot : (partitions disk)[slot]? = some (k, t)) :
    Leads board p (typeOutcome p pdev slot t) ↔
      ∀ fsname, fsName t = some fsname →
        k = p.n ∧ disk.name = p.dev ∧ (p.named fsname).length < 100 := by
  rw [typeOutcome]
  cases hfs : fsName t with
  | none => simpa using leads_fail
  | some fsname =>
    simp only [leads_putName hdisk hopen hslot hfs, Option.some.injEq, forall_eq']

/-- **What is made of a record** whose partitions are known. -/
theorem deviceName_eq {devices : List DeviceDisk} {id : UInt8}
    (hfind : findDevice devices p.dev = some pdev) (hid : id.toNat = 48 + firstDigit p.n)
    (hoffers : Offers pdev ((partitions disk).map Prod.snd)) :
    deviceName devices p.dev p.file id =
      match partitions disk with
      | [] => .fail
      | [q] => typeOutcome p pdev 0 q.2
      | ps =>
        match ps[firstDigit p.n]? with
        | none => .wild
        | some q => typeOutcome p pdev (firstDigit p.n) q.2 := by
  obtain ⟨-, -, -, -, hdigit⟩ := numeral_eq_cons p.n
  have hletter : id + 49 = UInt8.ofNat (97 + firstDigit p.n) := by
    apply UInt8.toNat_inj.mp
    rw [UInt8.toNat_add, UInt8.toNat_ofNat, hid]
    simp
    omega
  have hne : UInt8.ofNat (97 + firstDigit p.n) ≠ 0 := by
    intro hzero
    have := congrArg UInt8.toNat hzero
    simp at this
    omega
  have hindex : id.toInt8.toInt - 48 = firstDigit p.n := by
    have hsmall : 2 * id.toBitVec.toNat < 2 ^ 8 := by
      rw [UInt8.toNat_toBitVec]
      omega
    have hint : id.toInt8.toInt = id.toNat := BitVec.toInt_eq_toNat_of_lt hsmall
    rw [hint, hid]
    omega
  rw [deviceName, hfind]
  simp only [hletter, hne, if_false, hindex]
  have hplain := fun k t (h : (k, t) ∈ partitions disk) => partitions_spec h
  have hlength := length_partitions disk
  rcases hps : partitions disk with - | ⟨⟨k, t⟩, - | ⟨q, ps⟩⟩
  · rw [hps] at hoffers
    rw [show pdev.devFstype = .unknown from hoffers]
  · rw [hps] at hoffers hplain
    rw [show pdev.devFstype = t from hoffers]
    have ht := hplain k t List.mem_cons_self
    cases t <;> first | rfl | exact absurd rfl ht.2.1 | exact absurd rfl ht.2.2
  · rw [hps] at hoffers hlength hplain
    obtain ⟨htype, hpart⟩ := hoffers
    rw [htype]
    simp only
    have hslots : (pdev.part[firstDigit p.n]?).map DiskPartitionTable.partFstype =
        (((k, t) :: q :: ps)[firstDigit p.n]?).map Prod.snd := by
      rw [← List.getElem?_map, ← List.getElem?_map, hpart]
      rfl
    by_cases hrange : firstDigit p.n < maxParts
    · rw [if_pos ⟨by omega, by exact_mod_cast hrange⟩, Int.toNat_natCast]
      cases hslot : pdev.part[firstDigit p.n]? with
      | none =>
        rw [hslot, Option.map_none, eq_comm, Option.map_eq_none_iff] at hslots
        rw [hslots]
      | some ppart =>
        rw [hslot, Option.map_some, eq_comm, Option.map_eq_some_iff] at hslots
        obtain ⟨q', hq', htype'⟩ := hslots
        rw [hq']
        simp only [htype', typeOutcome]
        cases ppart.partFstype <;> rfl
    · -- there is no slot for the digits 8 and 9
      rw [if_neg fun h => hrange (by exact_mod_cast h.2),
        List.getElem?_eq_none (by unfold maxParts at hrange; omega)]

/-- **Paths to partitions**: for all disks, whatever their MBRs hold, and every path `(dev,n)/file`
    it fails, or returns the path of partition `n` with the type detected there, exactly where the
    name is short, the first disk whose name the device's begins with is no CD, and its only slot,
    or slot `n`, stands for entry `n`, if a file can be loaded from it. -/
theorem transform_exact {board : Board} {devices : List DeviceDisk}
    (h : devicesInit board.disks = some devices) (p : DevPath) :
    Leads board p (filenamePathTransform devices p.text) ↔ Straight board p := by
  obtain ⟨id, hid, hpath⟩ := filenamePathTransform_path devices p
  rw [hpath, Straight]
  by_cases hlong : 19 ≤ p.dev.length
  · rw [if_pos hlong]
    exact iff_of_true leads_fail (.inl hlong)
  rw [if_neg hlong, or_iff_right hlong]
  by_cases hfile : 100 ≤ p.file.length
  · rw [if_pos hfile]
    exact iff_of_false not_leads_wild fun hshort => Nat.not_lt_of_le hfile hshort.1
  rw [if_neg hfile, and_iff_right (Nat.lt_of_not_le hfile)]
  have hfind := findDevice_eq h p.dev
  cases hdisk : board.disks.find? (·.name <+: p.dev) with
  | none =>
    rw [hdisk, Option.bind_none] at hfind
    rw [deviceName, hfind]
    exact iff_of_true leads_fail (by simp)
  | some disk =>
    have hmem := List.mem_of_find?_eq_some hdisk
    obtain ⟨pdev, hopen⟩ := devicesInit_mem h hmem
    rw [hdisk, Option.bind_some, hopen] at hfind
    simp only [Option.some.injEq, forall_eq']
    rcases (devPartOpen_spec hopen).2 with ⟨hcd, htype⟩ | ⟨hcd, hoffers⟩
    · refine iff_of_false ?_ fun hno => by simp [hcd] at hno
      rw [deviceName, hfind]
      simp only [htype, putName]
      split_ifs
      · rw [leads_path hmem hopen, partitions_of_cd hcd]
        simp
      · exact not_leads_wild
    · rw [deviceName_eq hfind hid hoffers, hcd, Serves, slotOf]
      rcases hps : partitions disk with - | ⟨⟨k, t⟩, - | ⟨q, ps⟩⟩
      · simpa using leads_fail
      · have hslot : (partitions disk)[0]? = some (k, t) := by rw [hps]; rfl
        simp only [leads_typeOutcome hmem hopen hslot]
        simp
      · rw [if_neg (by simp)]
        simp only
        cases hslot : ((k, t) :: q :: ps)[firstDigit p.n]? with
        | none => exact iff_of_false not_leads_wild (by simp)
        | some q' =>
          have hslot' : (partitions disk)[firstDigit p.n]? = some (q'.1, q'.2) := by rw [hps, hslot]
          simp only [leads_typeOutcome hmem hopen hslot']
          simp [Prod.ext_iff]

/-- An MBR whose first entry is not in use, with an ext2 and a FAT partition behind. -/
def gapLead : Mem
  | 466 => 0x83
  | 470 => 63
  | 474 => 8
  | 482 => 0x0B
  | 486 => 71
  | 490 => 8
  | 510 => 0x55
  | 511 => 0xaa
  | _ => 0

def gapDisk : DiskDevice where
  name := ascii "wd0"
  opens := true
  read := fun off _ => some (if off = 0 then gapLead else fun _ => 0)
  buffers := true
  room := fun _ => true

def gapBoard : Board := ⟨[gapDisk], List.nodup_singleton _⟩

def gapDevices : List DeviceDisk :=
  [⟨ascii "wd0", .compound, [⟨0x83, 2, 63, 8, 71, .ext2⟩, ⟨0x0B, 3, 71, 8, 79, .fat⟩]⟩]

/-- `(wd0,1)/k`. -/
def gapPath : DevPath := ⟨ascii "wd0", 1, ascii "k", by simp [ascii]⟩

theorem transform_exact_gap :
    Leads gapBoard gapPath (filenamePathTransform gapDevices gapPath.text) ↔
      Straight gapBoard gapPath :=
  transform_exact (by decide) gapPath

/-- **A gap in front**: the ext2 partition 1 is to be read as FAT, which is what partition 2 has. -/
theorem gap_wrongType :
    devicesInit gapBoard.disks = some gapDevices ∧
      partitions gapDisk = [(1, .ext2), (2, .fat)] ∧
      (∃ pdev, filenamePathTransform gapDevices gapPath.text =
        .path (ascii "/dev/fs/fat@wd0b/k") pdev 1) ∧
      ¬Leads gapBoard gapPath (filenamePathTransform gapDevices gapPath.text) := by
  have hparts : partitions gapDisk = [(1, .ext2), (2, .fat)] := by decide
  have hopen : devPartOpen gapDisk = some (gapDevices.head (by decide)) := by decide
  have hout : filenamePathTransform gapDevices gapPath.text =
      .path (ascii "/dev/fs/fat@wd0b/k") (gapDevices.head (by decide)) 1 := by decide
  refine ⟨by decide, hparts, ⟨_, hout⟩, ?_⟩
  rw [hout, leads_path List.mem_cons_self hopen, hparts]
  simp [gapPath]

end Pmon.Fs
