import Pmon.Lib.Run
import Pmon.Lib.WordMem
import Pmon.Lib.Words
import Mathlib.Tactic.Ring

/-!
# Entries of the file allocation table

`getFatEntry` of `pmon/fs/fatfs.c`, with `readsector`.  The table is read by sectors of 512 bytes,
of which the last one is kept in `FatBuffer`; `FatCacheNum` is its number in the table.

A read that fails may have put bytes into the buffer.

## Key results

- `getFatEntry_ok`, `getFatEntry_failed`: the field of the table is read, or a read fails.
- `getFatEntry_returns_iff`: when one call returns the entry.
- `getFatEntry_exact`: the same for all calls of a sequence.
-/

namespace Pmon.Fs.Fat

open Pmon.Lib

/-! ## §1 The volume -/

/-- `TYPE_FAT12` and so on. -/
inductive FatType where
  | fat12
  | fat16
  | fat32
deriving DecidableEq

/-- What `fat_init` finds out about a volume, as far as it is used here. -/
structure FatSc where
  partitionStart : ℕ
  bytesPerSec : ℕ
  resSectors : ℕ
  countOfClusters : ℕ
  /-- `ResSectors` is a `u_int16_t`. -/
  resSectors_lt : resSectors < 65536
  /-- A cluster number has 28 bits. -/
  countOfClusters_lt : countOfClusters < 2 ^ 28

/-- `FatType`. -/
def FatSc.fatType (fsc : FatSc) : FatType :=
  if fsc.countOfClusters < 4085 then .fat12
  else if fsc.countOfClusters < 65525 then .fat16
  else .fat32

/-- A disk.  A read of some bytes at a position gives them all, or it fails and leaves what it has
    put into the buffer. -/
structure FatDisk where
  bytes : Mem
  broken : ℕ → ℕ → Option (List UInt8)

/-- `FatBuffer` and `FatCacheNum`. -/
structure FatCache where
  buffer : Mem
  num : ℤ

/-- `SECTORSIZE`. -/
def sectorSize : ℕ := 512

/-- The position that `readsector` seeks. -/
def FatSc.position (fsc : FatSc) (sector : ℕ) : ℕ :=
  fsc.partitionStart * sectorSize + sectorSize * sector

/-! ## §2 getFatEntry -/

/-- `readsector`: whether it returns 1, and the buffer. -/
def readsector (disk : FatDisk) (fsc : FatSc) (sector count : ℕ) (buffer : Mem) : Bool × Mem :=
  match disk.broken (fsc.position sector) (sectorSize * count) with
  | none => (true, buffer.store 0 (disk.bytes.slice (fsc.position sector) (sectorSize * count)))
  | some bytes => (false, buffer.store 0 bytes)

/-- A sector of the table is read into the cache: whether that worked. -/
def fillCache (disk : FatDisk) (fsc : FatSc) (fatsect : ℕ) (c : FatCache) : Bool × FatCache :=
  match readsector disk fsc (fatsect + fsc.resSectors) 1 c.buffer with
  | (true, buffer) => (true, ⟨buffer, fatsect⟩)
  | (false, buffer) => (false, { c with buffer })

/-- `if (fsc->FatCacheNum != fatsect)`. -/
def needSector (disk : FatDisk) (fsc : FatSc) (fatsect : ℕ) (c : FatCache) : Bool × FatCache :=
  if u32 c.num ≠ fatsect then fillCache disk fsc fatsect c else (true, c)

/-- `FatBuffer[i]`. -/
def FatCache.at (c : FatCache) (i : ℕ) : ℕ := (c.buffer i).toNat

/-- What a failed `readsector` makes `getFatEntry` return. -/
def fatError : ℕ := 4294967295

/-- One more byte of a FAT12 entry: the next sector is read when `fatoffset + k` is behind this
    one. -/
def nextByte (disk : FatDisk) (fsc : FatSc) (fatsect fatoffset k : ℕ) (c : FatCache) :
    Bool × ℕ × FatCache :=
  if u32 (fatoffset + k) ≥ sectorSize then
    match fillCache disk fsc (fatsect + 1) c with
    | (ok, c) => (ok, u32 ((fatoffset : ℤ) - sectorSize), c)
  else (true, fatoffset, c)

/-- The FAT12 branch. -/
def getFat12 (disk : FatDisk) (fsc : FatSc) (entry : ℕ) (c : FatCache) : ℕ × FatCache :=
  let byteoffset := entry / 2 * 2 * 3 / 2
  let fatsect := byteoffset / sectorSize
  let fatoffset := byteoffset % sectorSize
  match needSector disk fsc fatsect c with
  | (false, c) => (fatError, c)
  | (true, c) =>
    let b1 := c.at fatoffset
    match nextByte disk fsc fatsect fatoffset 1 c with
    | (false, _, c) => (fatError, c)
    | (true, fatoffset, c) =>
      let b2 := c.at (u32 (fatoffset + 1))
      match nextByte disk fsc fatsect fatoffset 2 c with
      | (false, _, c) => (fatError, c)
      | (true, fatoffset, c) =>
        let b3 := c.at (u32 (fatoffset + 2))
        if entry % 2 = 1 then (b3 * 16 + b2 / 16, c) else (b2 % 16 * 256 + b1, c)

/-- `getFatEntry`. -/
def getFatEntry (disk : FatDisk) (fsc : FatSc) (entry : ℕ) (c : FatCache) : ℕ × FatCache :=
  match fsc.fatType with
  | .fat12 => getFat12 disk fsc entry c
  | .fat16 =>
    let byteoffset := u32 (entry * 2)
    let fatoffset := byteoffset % sectorSize
    match needSector disk fsc (byteoffset / sectorSize) c with
    | (false, c) => (fatError, c)
    | (true, c) => (c.at fatoffset + c.at (fatoffset + 1) * 256, c)
  | .fat32 =>
    let byteoffset := u32 (entry * 4)
    let fatoffset := byteoffset % sectorSize
    match needSector disk fsc (byteoffset / sectorSize) c with
    | (false, c) => (fatError, c)
    | (true, c) =>
      (c.at fatoffset + c.at (fatoffset + 1) * 256 + c.at (fatoffset + 2) * 65536 +
        c.at (fatoffset + 3) * 16777216, c)

/-! ## §3 The entry of a cluster -/

/-- The field of a cluster in a table: 12 bits from a nibble on, or 16 or 32 bits. -/
def tableField (table : Mem) : FatType → ℕ → ℕ
  | .fat12, cluster => table.half (cluster + cluster / 2) / 16 ^ (cluster % 2) % 4096
  | .fat16, cluster => table.half (2 * cluster)
  | .fat32, cluster => table.word (4 * cluster)

/-- The table that begins so many bytes behind the start of the partition. -/
def tableAt (disk : FatDisk) (fsc : FatSc) (start : ℕ) : Mem := fun o =>
  disk.bytes (fsc.partitionStart * sectorSize + start + o)

/-- **The entry** of a cluster: the table stands behind the reserved sectors, and of 32 bits the
    high four are reserved. -/
def fatEntry (disk : FatDisk) (fsc : FatSc) (cluster : ℕ) : ℕ :=
  tableField (tableAt disk fsc (fsc.resSectors * fsc.bytesPerSec)) fsc.fatType cluster % 2 ^ 28

/-- The field that is read when a sector is taken to have 512 bytes. -/
def fieldAt512 (disk : FatDisk) (fsc : FatSc) (cluster : ℕ) : ℕ :=
  tableField (tableAt disk fsc (fsc.resSectors * sectorSize)) fsc.fatType cluster

/-- The cached number and the cached bytes agree. -/
def Coherent (disk : FatDisk) (fsc : FatSc) (c : FatCache) : Prop :=
  c.num = -1 ∨ ∃ k : ℕ, c.num = k ∧ k < 2 ^ 31 ∧ ∀ a < sectorSize,
    c.buffer a = tableAt disk fsc (fsc.resSectors * sectorSize) (k * sectorSize + a)

variable {disk : FatDisk} {fsc : FatSc} {c c' : FatCache} {entry fatsect : ℕ}

/-- The sector of the table can be read. -/
def Readable (disk : FatDisk) (fsc : FatSc) (fatsect : ℕ) : Prop :=
  disk.broken (fsc.position (fatsect + fsc.resSectors)) sectorSize = none

/-! ## §4 The cache -/

/-- The sector `fatsect` is cached. -/
def Cached (disk : FatDisk) (fsc : FatSc) (fatsect : ℕ) (c : FatCache) : Prop :=
  c.num = fatsect ∧ ∀ a < sectorSize,
    c.buffer a = tableAt disk fsc (fsc.resSectors * sectorSize) (fatsect * sectorSize + a)

theorem Cached.coherent (h : Cached disk fsc fatsect c) (hlt : fatsect < 2 ^ 31) :
    Coherent disk fsc c := .inr ⟨fatsect, h.1, hlt, h.2⟩

theorem Cached.at (h : Cached disk fsc fatsect c) {a : ℕ} (ha : a < sectorSize) :
    c.at a = (tableAt disk fsc (fsc.resSectors * sectorSize) (fatsect * sectorSize + a)).toNat := by
  rw [FatCache.at, h.2 a ha]

theorem readsector_ok (h : Readable disk fsc fatsect) (buffer : Mem) :
    readsector disk fsc (fatsect + fsc.resSectors) 1 buffer = (true,
      buffer.store 0 (disk.bytes.slice (fsc.position (fatsect + fsc.resSectors)) sectorSize)) := by
  rw [readsector, Nat.mul_one, show disk.broken _ _ = none from h]

/-- The bytes of a sector of the table. -/
theorem store_sector (buffer : Mem) {a : ℕ} (ha : a < sectorSize) :
    buffer.store 0 (disk.bytes.slice (fsc.position (fatsect + fsc.resSectors)) sectorSize) a =
      tableAt disk fsc (fsc.resSectors * sectorSize) (fatsect * sectorSize + a) := by
  have hlen : a < (disk.bytes.slice (fsc.position (fatsect + fsc.resSectors))
      sectorSize).length := by
    rw [Mem.length_slice]
    exact ha
  have hcell := Mem.store_of_mem (m := buffer) (a := 0) hlen
  rw [Nat.zero_add] at hcell
  have hpos : fsc.partitionStart * sectorSize + fsc.resSectors * sectorSize +
      (fatsect * sectorSize + a) = fsc.position (fatsect + fsc.resSectors) + a := by
    rw [FatSc.position]
    ring
  rw [hcell, ← (Mem.holds_slice disk.bytes _ sectorSize).getElem hlen, tableAt, hpos]

theorem fillCache_ok (h : Readable disk fsc fatsect) (c : FatCache) :
    ∃ c', fillCache disk fsc fatsect c = (true, c') ∧ Cached disk fsc fatsect c' := by
  have hread := readsector_ok h c.buffer
  have hcells := fun a (ha : a < sectorSize) =>
    @store_sector disk fsc fatsect c.buffer a ha
  -- the buffer itself plays no part from here on
  generalize c.buffer.store 0 _ = buffer at hread hcells
  refine ⟨⟨buffer, fatsect⟩, ?_, rfl, hcells⟩
  rw [fillCache, hread]

theorem fillCache_failed (h : ¬ Readable disk fsc fatsect) (c : FatCache) :
    ∃ c', fillCache disk fsc fatsect c = (false, c') := by
  obtain ⟨bytes, hbytes⟩ := Option.ne_none_iff_exists'.mp h
  apply Exists.intro
  rw [fillCache, readsector, Nat.mul_one, hbytes]

/-- A sector that is needed is read unless it is cached. -/
theorem needSector_ok (hc : Coherent disk fsc c) (hlt : fatsect < 2 ^ 31)
    (h : c.num ≠ fatsect → Readable disk fsc fatsect) :
    ∃ c', needSector disk fsc fatsect c = (true, c') ∧ Cached disk fsc fatsect c' := by
  by_cases hnum : c.num = fatsect
  · have hu : u32 c.num = fatsect := u32_of_bounds hnum (by omega)
    refine ⟨c, by rw [needSector, if_neg (not_not_intro hu)], hnum, ?_⟩
    rcases hc with hnone | ⟨k, hk, -, hbytes⟩
    · omega
    · obtain rfl : k = fatsect := by omega
      exact hbytes
  · have hu : u32 c.num ≠ fatsect := by
      rw [u32]
      rcases hc with hnone | ⟨k, hk, hklt, -⟩ <;> omega
    obtain ⟨c', hfill, hcached⟩ := fillCache_ok (h hnum) c
    exact ⟨c', by rw [needSector, if_pos hu, hfill], hcached⟩

theorem needSector_failed (hc : Coherent disk fsc c) (hlt : fatsect < 2 ^ 31)
    (hnum : c.num ≠ fatsect) (h : ¬ Readable disk fsc fatsect) :
    ∃ c', needSector disk fsc fatsect c = (false, c') := by
  have hu : u32 c.num ≠ fatsect := by
    rw [u32]
    rcases hc with hnone | ⟨k, hk, hklt, -⟩ <;> omega
  rw [needSector, if_pos hu]
  exact fillCache_failed h c

/-! ## §5 What one call reads -/

/-- The sector of the table that an entry begins in. -/
def FatSc.sectorOf (fsc : FatSc) (entry : ℕ) : ℕ :=
  match fsc.fatType with
  | .fat12 => 3 * (entry / 2) / sectorSize
  | .fat16 => 2 * entry / sectorSize
  | .fat32 => 4 * entry / sectorSize

/-- The three bytes of a pair of FAT12 entries do not all lie in one sector. -/
def FatSc.Straddles (fsc : FatSc) (entry : ℕ) : Prop :=
  fsc.fatType = .fat12 ∧ 510 ≤ 3 * (entry / 2) % sectorSize

/-- The sectors that a call has to read can be read. -/
structure SectorsRead (disk : FatDisk) (fsc : FatSc) (c : FatCache) (entry : ℕ) : Prop where
  first : c.num ≠ fsc.sectorOf entry → Readable disk fsc (fsc.sectorOf entry)
  second : fsc.Straddles entry → Readable disk fsc (fsc.sectorOf entry + 1)

theorem FatSc.sectorOf_lt (fsc : FatSc) (h : entry < 2 ^ 29) :
    fsc.sectorOf entry + 1 < 2 ^ 31 := by
  rw [FatSc.sectorOf]
  split <;> simp only [sectorSize] <;> omega

variable {o k : ℕ}

theorem nextByte_inside (h : u32 (o + k) < sectorSize) :
    nextByte disk fsc fatsect o k c = (true, o, c) := by
  rw [nextByte, if_neg (by omega)]

theorem nextByte_behind (h : sectorSize ≤ u32 (o + k)) (hread : Readable disk fsc (fatsect + 1)) :
    ∃ c', nextByte disk fsc fatsect o k c = (true, u32 ((o : ℤ) - sectorSize), c') ∧
      Cached disk fsc (fatsect + 1) c' := by
  obtain ⟨c', hfill, hcached⟩ := fillCache_ok hread c
  exact ⟨c', by rw [nextByte, if_pos h, hfill], hcached⟩

theorem nextByte_failed (h : sectorSize ≤ u32 (o + k))
    (hread : ¬ Readable disk fsc (fatsect + 1)) :
    ∃ o' c', nextByte disk fsc fatsect o k c = (false, o', c') := by
  obtain ⟨c', hfill⟩ := fillCache_failed hread c
  exact ⟨_, c', by rw [nextByte, if_pos h, hfill]⟩

/-- The FAT12 field by its bytes. -/
theorem tableField_fat12 (table : Mem) (entry : ℕ) :
    tableField table .fat12 entry =
      if entry % 2 = 1 then
        (table (3 * (entry / 2) + 2)).toNat * 16 + (table (3 * (entry / 2) + 1)).toNat / 16
      else
        (table (3 * (entry / 2) + 1)).toNat % 16 * 256 + (table (3 * (entry / 2))).toNat := by
  rw [tableField, Mem.half]
  split
  · rename_i hodd
    -- the first of the two bytes is the middle one of the pair
    have hat : entry + entry / 2 = 3 * (entry / 2) + 1 := by omega
    have hmid := (table (3 * (entry / 2) + 1)).toNat_lt
    have hlast := (table (3 * (entry / 2) + 2)).toNat_lt
    rw [hat, hodd, Nat.pow_one, show 3 * (entry / 2) + 1 + 1 = 3 * (entry / 2) + 2 from rfl]
    omega
  · rename_i heven
    have hat : entry + entry / 2 = 3 * (entry / 2) := by omega
    have hzero : entry % 2 = 0 := by omega
    have hfirst := (table (3 * (entry / 2))).toNat_lt
    rw [hat, hzero]
    omega

/-- The second and the third byte of a pair, where its first byte is cached. -/
theorem nextBytes_ok (h : Cached disk fsc fatsect c) (hlt : fatsect + 1 < 2 ^ 31)
    (ho : o < sectorSize) (hsecond : 510 ≤ o → Readable disk fsc (fatsect + 1)) :
    ∃ o₂ c₂ o₃ c₃,
      nextByte disk fsc fatsect o 1 c = (true, o₂, c₂) ∧
      c₂.at (u32 (o₂ + 1)) = (tableAt disk fsc (fsc.resSectors * sectorSize)
        (fatsect * sectorSize + o + 1)).toNat ∧
      nextByte disk fsc fatsect o₂ 2 c₂ = (true, o₃, c₃) ∧
      c₃.at (u32 (o₃ + 2)) = (tableAt disk fsc (fsc.resSectors * sectorSize)
        (fatsect * sectorSize + o + 2)).toNat ∧
      Coherent disk fsc c₃ := by
  have hsize : sectorSize = 512 := rfl
  by_cases h510 : o < 510
  · -- the three bytes lie in one sector
    have h1 : u32 ((o : ℤ) + 1) = o + 1 := u32_of_bounds (by omega) (by omega)
    have h2 : u32 ((o : ℤ) + 2) = o + 2 := u32_of_bounds (by omega) (by omega)
    refine ⟨o, c, o, c, nextByte_inside ?_, ?_, nextByte_inside ?_, ?_, h.coherent (by omega)⟩
    · apply lt_of_eq_of_lt h1
      omega
    · rw [h1, h.at (by omega), Nat.add_assoc]
    · apply lt_of_eq_of_lt h2
      omega
    · rw [h2, h.at (by omega), Nat.add_assoc]
  · have hread := hsecond (by omega)
    by_cases hlast : o = 510
    · -- the third byte is the first of the next sector
      subst hlast
      obtain ⟨c', hbehind, hcached⟩ := nextByte_behind (o := 510) (k := 2) (c := c)
        (le_of_eq rfl) hread
      refine ⟨510, c, _, c', nextByte_inside (by decide), ?_, hbehind, ?_,
        hcached.coherent hlt⟩
      · have h1 : u32 ((510 : ℕ) + 1) = 511 := rfl
        rw [h1, h.at (by omega)]
      · have h2 : u32 ((u32 ((510 : ℕ) - sectorSize) : ℕ) + 2) = 0 := rfl
        have hat : (fatsect + 1) * sectorSize + 0 = fatsect * sectorSize + 510 + 2 := by
          rw [hsize]
          omega
        rw [h2, hcached.at (by omega), hat]
    · -- the second byte is the first of the next sector, and the third is behind it
      obtain rfl : o = 511 := by omega
      obtain ⟨c', hbehind, hcached⟩ := nextByte_behind (o := 511) (k := 1) (c := c)
        (le_of_eq rfl) hread
      refine ⟨_, c', _, c', hbehind, ?_, nextByte_inside (by decide), ?_, hcached.coherent hlt⟩
      · have h1 : u32 ((u32 ((511 : ℕ) - sectorSize) : ℕ) + 1) = 0 := rfl
        have hat : (fatsect + 1) * sectorSize + 0 = fatsect * sectorSize + 511 + 1 := by
          rw [hsize]
          omega
        rw [h1, hcached.at (by omega), hat]
      · have h2 : u32 ((u32 ((511 : ℕ) - sectorSize) : ℕ) + 2) = 1 := rfl
        have hat : (fatsect + 1) * sectorSize + 1 = fatsect * sectorSize + 511 + 2 := by
          rw [hsize]
          omega
        rw [h2, hcached.at (by omega), hat]

/-- The next sector is needed and cannot be read. -/
theorem nextBytes_failed (ho : o < sectorSize) (hbehind : 510 ≤ o)
    (h : ¬ Readable disk fsc (fatsect + 1)) :
    (∃ o' c', nextByte disk fsc fatsect o 1 c = (false, o', c')) ∨
      nextByte disk fsc fatsect o 1 c = (true, o, c) ∧
        ∃ o' c', nextByte disk fsc fatsect o 2 c = (false, o', c') := by
  have hsize : sectorSize = 512 := rfl
  by_cases hlast : o = 510
  · subst hlast
    exact .inr ⟨nextByte_inside (by decide), nextByte_failed (le_of_eq rfl) h⟩
  · obtain rfl : o = 511 := by omega
    exact .inl (nextByte_failed (le_of_eq rfl) h)

/-- Both sectors of a FAT12 entry are read. -/
theorem getFat12_ok (hc : Coherent disk fsc c) (hlt : 3 * (entry / 2) / sectorSize + 1 < 2 ^ 31)
    (hfirst : c.num ≠ (3 * (entry / 2) / sectorSize : ℕ) →
      Readable disk fsc (3 * (entry / 2) / sectorSize))
    (hsecond : 510 ≤ 3 * (entry / 2) % sectorSize →
      Readable disk fsc (3 * (entry / 2) / sectorSize + 1)) :
    ∃ c', getFat12 disk fsc entry c =
        (tableField (tableAt disk fsc (fsc.resSectors * sectorSize)) .fat12 entry, c') ∧
      Coherent disk fsc c' := by
  have hbyte : entry / 2 * 2 * 3 / 2 = 3 * (entry / 2) := by omega
  have hmod : 3 * (entry / 2) % sectorSize < sectorSize := Nat.mod_lt _ (by decide)
  have hdiv : 3 * (entry / 2) / sectorSize * sectorSize + 3 * (entry / 2) % sectorSize =
      3 * (entry / 2) := Nat.div_add_mod' _ _
  obtain ⟨c₁, hneed, hcached⟩ := needSector_ok hc (by omega) hfirst
  obtain ⟨o₂, c₂, o₃, c₃, hnext₂, hb₂, hnext₃, hb₃, hcoherent⟩ :=
    nextBytes_ok hcached hlt hmod hsecond
  rw [hdiv] at hb₂ hb₃
  have hb₁ := hcached.at hmod
  rw [hdiv] at hb₁
  refine ⟨c₃, ?_, hcoherent⟩
  rw [tableField_fat12, ← hb₁, ← hb₂, ← hb₃]
  simp only [getFat12, hbyte, hneed, hnext₂, hnext₃]
  split <;> rfl

theorem getFat12_failed (hc : Coherent disk fsc c)
    (hlt : 3 * (entry / 2) / sectorSize + 1 < 2 ^ 31)
    (h : ¬ ((c.num ≠ (3 * (entry / 2) / sectorSize : ℕ) →
        Readable disk fsc (3 * (entry / 2) / sectorSize)) ∧
      (510 ≤ 3 * (entry / 2) % sectorSize →
        Readable disk fsc (3 * (entry / 2) / sectorSize + 1)))) :
    (getFat12 disk fsc entry c).1 = fatError := by
  have hbyte : entry / 2 * 2 * 3 / 2 = 3 * (entry / 2) := by omega
  have hmod : 3 * (entry / 2) % sectorSize < sectorSize := Nat.mod_lt _ (by decide)
  by_cases hfirst : c.num ≠ (3 * (entry / 2) / sectorSize : ℕ) →
      Readable disk fsc (3 * (entry / 2) / sectorSize)
  · obtain ⟨c₁, hneed, hcached⟩ := needSector_ok hc (by omega) hfirst
    have hsecond := not_and.mp h hfirst
    rw [Classical.not_imp] at hsecond
    obtain ⟨hbehind, hbad⟩ := hsecond
    rcases nextBytes_failed (c := c₁) hmod hbehind hbad with
      ⟨o₂, c₂, hnext₂⟩ | ⟨hnext₂, o₃, c₃, hnext₃⟩
    · simp only [getFat12, hbyte, hneed, hnext₂]
    · simp only [getFat12, hbyte, hneed, hnext₂, hnext₃]
  · rw [Classical.not_imp] at hfirst
    obtain ⟨c₁, hneed⟩ := needSector_failed hc (by omega) hfirst.1 hfirst.2
    simp only [getFat12, hbyte, hneed]

/-- A field that lies in one sector. -/
theorem needSector_at {p : ℕ} (hc : Coherent disk fsc c) (hlt : p / sectorSize + 1 < 2 ^ 31)
    (h : c.num ≠ (p / sectorSize : ℕ) → Readable disk fsc (p / sectorSize)) :
    ∃ c', needSector disk fsc (p / sectorSize) c = (true, c') ∧ Coherent disk fsc c' ∧
      ∀ k, p % sectorSize + k < sectorSize → c'.at (p % sectorSize + k) =
        (tableAt disk fsc (fsc.resSectors * sectorSize) (p + k)).toNat := by
  obtain ⟨c', hneed, hcached⟩ := needSector_ok hc (by omega) h
  refine ⟨c', hneed, hcached.coherent (by omega), ?_⟩
  intro k hk
  have hat : p / sectorSize * sectorSize + (p % sectorSize + k) = p + k := by
    rw [← Nat.add_assoc, Nat.div_add_mod']
  rw [hcached.at hk, hat]

/-! ## §6 One call -/

/-- **The field of the table** is what a call returns when the sectors can be read. -/
theorem getFatEntry_ok (hc : Coherent disk fsc c) (hentry : entry < 2 ^ 29)
    (h : SectorsRead disk fsc c entry) :
    ∃ c', getFatEntry disk fsc entry c = (fieldAt512 disk fsc entry, c') ∧
      Coherent disk fsc c' := by
  have hlt := fsc.sectorOf_lt hentry
  obtain ⟨hfirst, hsecond⟩ := h
  rw [getFatEntry, fieldAt512]
  cases htype : fsc.fatType with
  | fat12 =>
    simp only [FatSc.Straddles, FatSc.sectorOf, htype, true_and] at hlt hfirst hsecond
    exact getFat12_ok hc hlt hfirst hsecond
  | fat16 =>
    simp only [FatSc.sectorOf, htype] at hlt hfirst
    obtain ⟨c', hneed, hcoherent, hcell⟩ := needSector_at hc hlt hfirst
    have hbyte : u32 (entry * 2) = 2 * entry := u32_of_bounds (by omega) (by omega)
    have hin : 2 * entry % sectorSize + 1 < sectorSize := by
      simp only [sectorSize]
      omega
    have hzero := hcell 0 (by omega)
    rw [Nat.add_zero, Nat.add_zero] at hzero
    refine ⟨c', ?_, hcoherent⟩
    simp only [hbyte, hneed]
    rw [tableField, Mem.half, ← hcell 1 hin, ← hzero, Nat.mul_comm 256]
  | fat32 =>
    simp only [FatSc.sectorOf, htype] at hlt hfirst
    obtain ⟨c', hneed, hcoherent, hcell⟩ := needSector_at hc hlt hfirst
    have hbyte : u32 (entry * 4) = 4 * entry := u32_of_bounds (by omega) (by omega)
    have hin : 4 * entry % sectorSize + 3 < sectorSize := by
      simp only [sectorSize]
      omega
    have hzero := hcell 0 (by omega)
    rw [Nat.add_zero, Nat.add_zero] at hzero
    refine ⟨c', ?_, hcoherent⟩
    simp only [hbyte, hneed]
    rw [tableField, Mem.word, ← hcell 1 (by omega), ← hcell 2 (by omega), ← hcell 3 hin,
      ← hzero, Nat.mul_comm 256, Nat.mul_comm 65536, Nat.mul_comm 16777216]

/-- **A read that fails** makes the call return -1. -/
theorem getFatEntry_failed (hc : Coherent disk fsc c) (hentry : entry < 2 ^ 29)
    (h : ¬ SectorsRead disk fsc c entry) : (getFatEntry disk fsc entry c).1 = fatError := by
  have hlt := fsc.sectorOf_lt hentry
  rw [getFatEntry]
  cases htype : fsc.fatType with
  | fat12 =>
    simp only [FatSc.sectorOf, htype] at hlt
    apply getFat12_failed hc hlt
    intro hread
    apply h
    constructor
    · simpa only [FatSc.sectorOf, htype] using hread.1
    · simpa only [FatSc.sectorOf, FatSc.Straddles, htype, true_and] using hread.2
  | fat16 =>
    have hfirst : ¬ (c.num ≠ fsc.sectorOf entry → Readable disk fsc (fsc.sectorOf entry)) := by
      intro hread
      exact h ⟨hread, fun hstraddles => absurd (htype.symm.trans hstraddles.1) (by decide)⟩
    simp only [FatSc.sectorOf, htype, Classical.not_imp] at hlt hfirst
    obtain ⟨c', hneed⟩ := needSector_failed hc (by omega) hfirst.1 hfirst.2
    have hbyte : u32 (entry * 2) = 2 * entry := u32_of_bounds (by omega) (by omega)
    simp only [hbyte, hneed]
  | fat32 =>
    have hfirst : ¬ (c.num ≠ fsc.sectorOf entry → Readable disk fsc (fsc.sectorOf entry)) := by
      intro hread
      exact h ⟨hread, fun hstraddles => absurd (htype.symm.trans hstraddles.1) (by decide)⟩
    simp only [FatSc.sectorOf, htype, Classical.not_imp] at hlt hfirst
    obtain ⟨c', hneed⟩ := needSector_failed hc (by omega) hfirst.1 hfirst.2
    have hbyte : u32 (entry * 4) = 4 * entry := u32_of_bounds (by omega) (by omega)
    simp only [hbyte, hneed]

/-- The 28 bits that are read as the entry are the entry. -/
def SameField (disk : FatDisk) (fsc : FatSc) (entry : ℕ) : Prop :=
  fieldAt512 disk fsc entry % 2 ^ 28 = fatEntry disk fsc entry

/-- The reserved bits of the entry are zero. -/
def ReservedZero (disk : FatDisk) (fsc : FatSc) (entry : ℕ) : Prop :=
  fieldAt512 disk fsc entry / 2 ^ 28 = 0

theorem sameField_of_512 (h : fsc.bytesPerSec = sectorSize) : SameField disk fsc entry := by
  rw [SameField, fieldAt512, fatEntry, h]

theorem reservedZero_of_small (h : fsc.fatType ≠ .fat32) : ReservedZero disk fsc entry := by
  have hhalf (a : ℕ) :=
    Mem.half_lt (m := tableAt disk fsc (fsc.resSectors * sectorSize)) (a := a)
  rw [ReservedZero, fieldAt512]
  cases htype : fsc.fatType with
  | fat12 =>
    rw [tableField]
    omega
  | fat16 =>
    have hfield := hhalf (2 * entry)
    rw [tableField]
    omega
  | fat32 => exact absurd htype h

/-- What a call promises: the entry, and a cache that agrees with its number. -/
def ReturnsEntry (disk : FatDisk) (fsc : FatSc) (c : FatCache) (entry : ℕ) : Prop :=
  (getFatEntry disk fsc entry c).1 = fatEntry disk fsc entry ∧
    Coherent disk fsc (getFatEntry disk fsc entry c).2

/-- When a call keeps its promise. -/
structure EntryReadable (disk : FatDisk) (fsc : FatSc) (c : FatCache) (entry : ℕ) : Prop where
  read : SectorsRead disk fsc c entry
  same : SameField disk fsc entry
  reserved : ReservedZero disk fsc entry

/-- **One call**, from a cache that agrees with its number. -/
theorem getFatEntry_returns_iff (hc : Coherent disk fsc c) (hentry : entry < fsc.countOfClusters) :
    ReturnsEntry disk fsc c entry ↔ EntryReadable disk fsc c entry := by
  have hentry : entry < 2 ^ 29 := by
    have hcount := fsc.countOfClusters_lt
    omega
  constructor
  · rintro ⟨hreturns, -⟩
    by_cases hread : SectorsRead disk fsc c entry
    · obtain ⟨c', hok, -⟩ := getFatEntry_ok hc hentry hread
      rw [hok] at hreturns
      have hfield : fieldAt512 disk fsc entry < 2 ^ 28 := by
        apply lt_of_eq_of_lt hreturns
        exact Nat.mod_lt _ (by decide)
      refine ⟨hread, ?_, ?_⟩
      · rw [SameField, Nat.mod_eq_of_lt hfield]
        exact hreturns
      · exact Nat.div_eq_of_lt hfield
    · -- no entry has the value that a failed call returns
      have hlt : fatEntry disk fsc entry < 2 ^ 28 := Nat.mod_lt _ (by decide)
      rw [getFatEntry_failed hc hentry hread, fatError] at hreturns
      omega
  · rintro ⟨hread, hsame, hreserved⟩
    obtain ⟨c', hok, hcoherent⟩ := getFatEntry_ok hc hentry hread
    rw [ReturnsEntry, hok]
    refine ⟨?_, hcoherent⟩
    rw [SameField] at hsame
    rw [ReservedZero] at hreserved
    dsimp only
    omega

/-! ## §7 Calls in sequence -/

/-- The cache after a call. -/
def cacheAfter (disk : FatDisk) (fsc : FatSc) (c : FatCache) (entry : Fin fsc.countOfClusters) :
    FatCache :=
  (getFatEntry disk fsc entry c).2

/-- **Sequences of calls**, from the cache that `fat_init` leaves: every call of a sequence returns
    the entry and leaves the cache coherent, if and only if for each of them the sectors can be
    read, sectors of 512 bytes make no difference, and the reserved bits are zero. -/
theorem getFatEntry_exact (disk : FatDisk) (fsc : FatSc) (buffer : Mem)
    (entries : List (Fin fsc.countOfClusters)) :
    EveryStep (cacheAfter disk fsc) (fun c entry => ReturnsEntry disk fsc c entry)
        ⟨buffer, -1⟩ entries ↔
      EveryStep (cacheAfter disk fsc) (fun c entry => EntryReadable disk fsc c entry)
        ⟨buffer, -1⟩ entries := by
  have hstep (c : FatCache) (entry : Fin fsc.countOfClusters) (hc : Coherent disk fsc c) :=
    getFatEntry_returns_iff hc entry.isLt
  apply everyStep_iff hstep
  · intro c entry hc hreadable
    exact ((hstep c entry hc).mpr hreadable).2
  · exact .inl rfl

/-- A FAT32 volume whose cluster 3 is followed by cluster 4, with a reserved bit set. -/
def highBitVolume : FatSc := ⟨0, 512, 32, 65525, by decide, by decide⟩

@[inherit_doc highBitVolume] def highBitDisk : FatDisk where
  bytes a := if a = 16396 then 4 else if a = 16399 then 16 else 0
  broken _ _ := none

/-- The entry is 4, and what is returned is not. -/
theorem getFatEntry_highBit :
    fatEntry highBitDisk highBitVolume 3 = 4 ∧
      ¬ ReturnsEntry highBitDisk highBitVolume ⟨fun _ => 0, -1⟩ 3 := by
  refine ⟨by decide, ?_⟩
  rw [getFatEntry_returns_iff (.inl rfl) (by decide)]
  rintro ⟨-, -, hreserved⟩
  revert hreserved
  rw [ReservedZero]
  decide

end Pmon.Fs.Fat
