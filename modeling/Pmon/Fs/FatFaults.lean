import Pmon.Lib.Run
import Pmon.Fs.FatFile

/-!
# Reads that fail on a FAT volume

Which runs of `fat_open`, `fat_read` and `fat_lseek` keep `LastSector` in step with its buffer and
pass every failure on, when any access to the device may fail.

## Key results

- `readLoop_tagged`: turns read the file's own sectors, and a failure ends the call.
- `fatFindfile_whole`: a chain that was read without a failure ends where the table says so.
- `fatRuns_sound`: the same for runs over any number of descriptors.
-/

namespace Pmon.Fs.Fat

open Pmon.Lib Pmon.Libc

/-! ## §1 The sector buffer -/

/-- Where a sector lies on the device. -/
def FatVol.position (vol : FatVol) (sector : ℤ) : ℤ :=
  vol.partitionStart * sectorSize + sectorSize * sector

/-- The bytes of a file: those of the sectors that its chain leads to. -/
def FatFile.contents (f : FatFile) : Mem := fun p =>
  f.bytes ((f.vol.position (f.sector (p / sectorSize))).toNat + p % sectorSize)

/-- The buffer holds a sector. -/
def FatFile.HoldsSector (f : FatFile) (sector : ℤ) : Prop :=
  0 ≤ f.vol.position sector ∧
    ∀ a < sectorSize, f.lastSectorBuffer a = f.bytes ((f.vol.position sector).toNat + a)

/-- The recorded sector is none, or the one in the buffer. -/
def FatFile.Tagged (f : FatFile) : Prop := f.lastSector = -1 ∨ f.HoldsSector f.lastSector

variable {f f' : FatFile} {dev dev' : FatDev} {len pos : ℕ} {sector : ℤ} {buf : List UInt8}

/-- Only the position and the sector buffer differ. -/
def SameFile (f f' : FatFile) : Prop :=
  f'.bytes = f.bytes ∧ f'.vol = f.vol ∧ f'.file = f.file ∧ f'.chain = f.chain

theorem SameFile.contents (h : SameFile f f') : f'.contents = f.contents := by
  obtain ⟨hbytes, hvol, -, hchain⟩ := h
  funext p
  unfold FatFile.contents FatFile.sector
  rw [hbytes, hvol, hchain]

/-- **An access** is in front of the device, or it fails, or it gives the bytes. -/
theorem readAt_cases (partitionStart : ℕ) (sector : ℤ) (count : ℕ) (buffer : Mem) (dev : FatDev) :
    let position : ℤ := partitionStart * sectorSize + sectorSize * sector
    (position < 0 ∧ readAt partitionStart sector count buffer dev =
      (false, buffer, dev.after false)) ∨
    (0 ≤ position ∧ ∃ bytes, dev.faults 0 position.toNat (sectorSize * count) = some bytes ∧
      readAt partitionStart sector count buffer dev =
        (false, buffer.store 0 bytes, dev.after false)) ∨
    (0 ≤ position ∧ dev.faults 0 position.toNat (sectorSize * count) = none ∧
      readAt partitionStart sector count buffer dev =
        (true, buffer.store 0 (dev.bytes.slice position.toNat (sectorSize * count)),
          dev.after true)) := by
  intro position
  unfold readAt
  by_cases hneg : position < 0
  · left
    exact ⟨hneg, by rw [if_pos hneg]⟩
  · right
    rcases hfault : dev.faults 0 position.toNat (sectorSize * count) with _ | bytes
    · right
      refine ⟨by omega, rfl, ?_⟩
      rw [if_neg hneg]
      simp only [position] at hfault
      rw [hfault]
    · left
      refine ⟨by omega, bytes, rfl, ?_⟩
      rw [if_neg hneg]
      simp only [position] at hfault
      rw [hfault]

/-- The bytes of a sector in a buffer. -/
theorem store_slice_at (buffer bytes : Mem) (p : ℕ) {n a : ℕ} (ha : a < n) :
    buffer.store 0 (bytes.slice p n) a = bytes (p + a) := by
  have hlen : a < (bytes.slice p n).length := by
    rw [Mem.length_slice]
    exact ha
  have hcell := Mem.store_of_mem (m := buffer) (a := 0) hlen
  rw [Nat.zero_add] at hcell
  rw [hcell, ← (Mem.holds_slice bytes p n).getElem hlen]

/-! ## §2 A turn -/

/-- An access gives the bytes. -/
def Served (f : FatFile) (dev : FatDev) (sector : ℤ) (count : ℕ) : Prop :=
  0 ≤ f.vol.position sector ∧
    dev.faults 0 (f.vol.position sector).toNat (sectorSize * count) = none

/-- A read of one sector that fails leaves nothing in the buffer, or no sector is recorded. -/
def KeepsBuffer (f : FatFile) (dev : FatDev) (sector : ℤ) : Prop :=
  f.lastSector = -1 ∨
    ∀ bytes, dev.faults 0 (f.vol.position sector).toNat sectorSize = some bytes → bytes = []

/-- A sector may be loaded: behind a turn of the large path it is served and not the recorded one,
    else a failure keeps the buffer. -/
def LoadOk (loose : Bool) (f : FatFile) (dev : FatDev) (sector : ℤ) : Prop :=
  match loose with
  | true => sector ≠ f.lastSector ∧ Served f dev sector 1
  | false => sector ≠ f.lastSector → KeepsBuffer f dev sector

/-- What a turn has to be like.  A turn of the large path records a sector that is not in the
    buffer; `loose` says that the turn before was one.  The turn behind it is served, and by another
    sector than the recorded one.  Besides, in a turn of the small path the sector has a number and
    a failure keeps the buffer, and in one of the large path the numbers are those of an `int`. -/
def TurnOk (loose : Bool) (len : ℕ) (f : FatFile) (dev : FatDev) : Prop :=
  let pos := f.posn.toNat
  let sector := f.sector (pos / sectorSize)
  if len ≤ fatBufferSize then
    sector ≠ -1 ∧ LoadOk loose f dev sector
  else
    sector + turnSectors f pos len ≤ 2147483648 ∧
      (loose = true → Served f dev sector (turnSectors f pos len))

variable {loose : Bool}

theorem holdsSector_loaded (hpos : 0 ≤ f.vol.position sector) :
    ({ f with
      lastSectorBuffer := f.lastSectorBuffer.store 0
        (f.bytes.slice (f.vol.position sector).toNat sectorSize)
      lastSector := sector } : FatFile).HoldsSector sector := by
  refine ⟨hpos, ?_⟩
  intro a ha
  have hcell := store_slice_at f.lastSectorBuffer f.bytes (f.vol.position sector).toNat ha
  dsimp only
  rw [hcell]

/-- **A sector is loaded**, or the access fails; the buffer is in step. -/
theorem loadSector_cases (htag : loose = false → f.Tagged) (hbytes : dev.bytes = f.bytes)
    (hok : LoadOk loose f dev sector) (hsector : sector ≠ -1) :
    (∃ f', loadSector sector f dev = (false, f', dev.after false) ∧ SameFile f f' ∧ f'.Tagged ∧
      f'.posn = f.posn) ∨
    (∃ f' dev', loadSector sector f dev = (true, f', dev') ∧ SameFile f f' ∧ f'.Tagged ∧
      f'.posn = f.posn ∧ f'.HoldsSector sector ∧ dev'.bytes = dev.bytes ∧
      dev'.failed = dev.failed) := by
  unfold loadSector
  by_cases hsame : sector ≠ f.lastSector
  · rw [if_pos hsame]
    rcases readAt_cases f.vol.partitionStart sector 1 f.lastSectorBuffer dev with
      ⟨hneg, hread⟩ | ⟨-, bytes, hfault, hread⟩ | ⟨hpos, -, hread⟩
    · left
      rw [hread]
      refine ⟨f, rfl, ⟨rfl, rfl, rfl, rfl⟩, ?_, rfl⟩
      cases loose with
      | false => exact htag rfl
      | true => exact absurd hok.2.1 (Int.not_le.mpr hneg)
    · left
      rw [hread]
      refine ⟨_, rfl, ⟨rfl, rfl, rfl, rfl⟩, ?_, rfl⟩
      cases loose with
      | false =>
        rcases hok hsame with hnone | hempty
        · exact .inl hnone
        · -- nothing was put into the buffer
          rw [Nat.mul_one] at hfault
          obtain rfl := hempty bytes hfault
          exact htag rfl
      | true =>
        have hserved := hok.2.2
        unfold FatVol.position at hserved
        rw [hfault] at hserved
        cases hserved
    · right
      rw [hread, hbytes, Nat.mul_one]
      have hholds : ({ f with
          lastSectorBuffer := f.lastSectorBuffer.store 0
            (f.bytes.slice (f.vol.position sector).toNat sectorSize)
          lastSector := sector } : FatFile).HoldsSector sector := holdsSector_loaded hpos
      exact ⟨_, _, rfl, ⟨rfl, rfl, rfl, rfl⟩, .inr hholds, rfl, hholds, hbytes,
        by simp [FatDev.after]⟩
  · rw [if_neg hsame]
    right
    cases loose with
    | false =>
      refine ⟨f, dev, rfl, ⟨rfl, rfl, rfl, rfl⟩, htag rfl, rfl, ?_, rfl, rfl⟩
      rw [not_not.mp hsame] at hsector ⊢
      exact (htag rfl).resolve_left hsector
    | true => exact absurd hok.1 hsame

/-- The bytes of a file that lie in the buffered sector. -/
theorem slice_buffered (h : f.HoldsSector (f.sector (pos / sectorSize)))
    (hlen : pos % sectorSize + len ≤ sectorSize) :
    f.lastSectorBuffer.slice (pos % sectorSize) len = f.contents.slice pos len := by
  apply Mem.slice_shift
  intro k hk
  have hdiv : (pos + k) / sectorSize = pos / sectorSize := by
    simp only [sectorSize] at hlen ⊢
    omega
  have hmod : (pos + k) % sectorSize = pos % sectorSize + k := by
    simp only [sectorSize] at hlen ⊢
    omega
  unfold FatFile.contents
  rw [h.2 _ (by omega), hdiv, hmod]

theorem FatFile.sector_bounds (f : FatFile) (index : ℕ) :
    -2147483648 ≤ f.sector index ∧ f.sector index < 2147483648 :=
  wrap32_bounds _

/-- **A run of sectors**: those that the large path reads at once are the file's, one behind the
    other. -/
theorem runLength_sectors (f : FatFile) (fuel index : ℕ)
    (hint : f.sector index + runLength f fuel (f.sector index) index ≤ 2147483648) {j : ℕ}
    (hj : j < runLength f fuel (f.sector index) index) :
    f.sector (index + j) = f.sector index + j := by
  induction fuel generalizing index j with
  | zero =>
    rw [runLength] at hj
    obtain rfl : j = 0 := by omega
    simp
  | succ fuel ih =>
    rw [runLength] at hint hj
    by_cases hnext : wrap32 (f.sector index + 1) ≠ f.sector (index + 1)
    · rw [if_pos hnext] at hj
      obtain rfl : j = 0 := by omega
      simp
    · rw [if_neg hnext] at hint hj
      have heq := not_not.mp hnext
      have hpos := runLength_pos f fuel (f.sector (index + 1)) (index + 1)
      have hlow := (f.sector_bounds index).1
      rw [heq] at hint hj
      rw [wrap32_of_bounds (by omega) (by omega)] at heq
      cases j with
      | zero => simp
      | succ j =>
        have hlater := ih (index + 1) (by omega) (j := j) (by omega)
        have hsucc : index + (j + 1) = index + 1 + j := by omega
        rw [hsucc, hlater, ← heq]
        omega

/-- The bytes of a file that lie in a run of sectors. -/
theorem slice_run {sectors : ℕ} {stack : Mem}
    (hpos : 0 ≤ f.vol.position (f.sector (pos / sectorSize)))
    (hrun : ∀ j < sectors, f.sector (pos / sectorSize + j) = f.sector (pos / sectorSize) + j)
    (hlen : pos % sectorSize + len ≤ sectorSize * sectors) :
    (stack.store 0 (f.bytes.slice (f.vol.position (f.sector (pos / sectorSize))).toNat
      (sectorSize * sectors))).slice (pos % sectorSize) len = f.contents.slice pos len := by
  apply Mem.slice_shift
  intro k hk
  rw [store_slice_at _ _ _ (by omega)]
  -- the sector that the byte lies in
  generalize hj : (pos % sectorSize + k) / sectorSize = j
  have hlt : j < sectors := by
    simp only [sectorSize] at hj hlen
    omega
  have hdiv : (pos + k) / sectorSize = pos / sectorSize + j := by
    simp only [sectorSize] at hj ⊢
    omega
  have hat : pos % sectorSize + k = sectorSize * j + (pos + k) % sectorSize := by
    simp only [sectorSize] at hj ⊢
    omega
  have hposition : f.vol.position (f.sector (pos / sectorSize) + j) =
      f.vol.position (f.sector (pos / sectorSize)) + (sectorSize * j : ℕ) := by
    unfold FatVol.position
    push_cast
    ring
  unfold FatFile.contents
  rw [hdiv, hrun j hlt, hposition, hat, Int.toNat_add hpos (Int.natCast_nonneg _),
    Int.toNat_natCast, Nat.add_assoc]

/-- **A turn** of `fat_read`: it fails and so does the access, or the bytes of the file are read;
    the buffer is in step, unless the turn was one of the large path. -/
theorem readTurn_cases (htag : loose = false → f.Tagged) (hbytes : dev.bytes = f.bytes)
    (hok : TurnOk loose len f dev) :
    (∃ f', readTurn len f dev = (none, f', dev.after false) ∧ SameFile f f' ∧ f'.Tagged) ∨
    (∃ f' dev', readTurn len f dev =
        (some (f.contents.slice f.posn.toNat (copyLen f f.posn.toNat len)), f', dev') ∧
      SameFile f f' ∧ (len ≤ fatBufferSize → f'.Tagged) ∧
      f'.posn = f.posn + copyLen f f.posn.toNat len ∧
      dev'.bytes = dev.bytes ∧ dev'.failed = dev.failed) := by
  have hmod : f.posn.toNat % sectorSize < sectorSize := Nat.mod_lt _ (by decide)
  unfold readTurn
  unfold TurnOk at hok
  dsimp only at hok ⊢
  by_cases hsmall : len ≤ fatBufferSize
  · rw [if_pos hsmall] at hok ⊢
    rcases loadSector_cases htag hbytes hok.2 hok.1 with
      ⟨f', hload, hsame, htag', -⟩ | ⟨f', dev', hload, hsame, htag', hposn', hholds, hdev, hfailed⟩
    · left
      rw [hload]
      exact ⟨f', rfl, hsame, htag'⟩
    · right
      rw [hload]
      have hsector : f'.sector = f.sector := by
        unfold FatFile.sector
        rw [hsame.2.1, hsame.2.2.2]
      have hcopy : f.posn.toNat % sectorSize + copyLen f f.posn.toNat len ≤ sectorSize := by
        rw [copyLen, turnSectors, if_pos hsmall]
        omega
      rw [← hsector] at hholds
      refine ⟨{ f' with posn := f'.posn + copyLen f f.posn.toNat len }, dev', ?_, hsame,
        fun _ => htag', ?_, hdev, hfailed⟩
      · dsimp only
        rw [slice_buffered hholds hcopy, hsame.contents, hposn']
      · rw [hposn']
  · -- the large path: its buffer is not the one that is recorded
    rw [if_neg hsmall] at hok ⊢
    obtain ⟨hint, hserved⟩ := hok
    have hfails : f.vol.position (f.sector (f.posn.toNat / sectorSize)) < 0 ∨
        dev.faults 0 (f.vol.position (f.sector (f.posn.toNat / sectorSize))).toNat
          (sectorSize * turnSectors f f.posn.toNat len) ≠ none → f.Tagged := by
      intro hfails
      cases loose with
      | false => exact htag rfl
      | true =>
        obtain ⟨hpos, hnone⟩ := hserved rfl
        rcases hfails with hneg | hsome
        · omega
        · exact absurd hnone hsome
    rcases readAt_cases f.vol.partitionStart (f.sector (f.posn.toNat / sectorSize))
        (turnSectors f f.posn.toNat len) (fun _ => 0) dev with
      ⟨hneg, hread⟩ | ⟨-, bytes, hfault, hread⟩ | ⟨hpos, -, hread⟩
    · left
      rw [hread]
      exact ⟨f, rfl, ⟨rfl, rfl, rfl, rfl⟩, hfails (.inl hneg)⟩
    · left
      rw [hread]
      refine ⟨f, rfl, ⟨rfl, rfl, rfl, rfl⟩, hfails (.inr ?_)⟩
      unfold FatVol.position
      rw [hfault]
      exact Option.some_ne_none _
    · right
      have hturn : turnSectors f f.posn.toNat len = runLength f (fatBufferSize / sectorSize - 1)
          (f.sector (f.posn.toNat / sectorSize)) (f.posn.toNat / sectorSize) := by
        rw [turnSectors, if_neg hsmall]
      have hsectors : 0 < turnSectors f f.posn.toNat len := by
        rw [hturn]
        exact runLength_pos f _ _ _
      have hcopy : f.posn.toNat % sectorSize + copyLen f f.posn.toNat len ≤
          sectorSize * turnSectors f f.posn.toNat len := by
        have hle : sectorSize * 1 ≤ sectorSize * turnSectors f f.posn.toNat len :=
          Nat.mul_le_mul_left _ hsectors
        rw [copyLen]
        omega
      have hrun : ∀ j < turnSectors f f.posn.toNat len,
          f.sector (f.posn.toNat / sectorSize + j) =
            f.sector (f.posn.toNat / sectorSize) + j := by
        intro j hj
        rw [hturn] at hint hj
        exact runLength_sectors f _ _ hint hj
      rw [hread]
      refine ⟨{ f with
          posn := f.posn + copyLen f f.posn.toNat len
          lastSector := wrap32
            (f.sector (f.posn.toNat / sectorSize) + turnSectors f f.posn.toNat len - 1) },
        dev.after true, ?_, ⟨rfl, rfl, rfl, rfl⟩, fun h => absurd h hsmall, rfl, rfl,
        by simp [FatDev.after]⟩
      rw [hbytes]
      exact congrArg (fun bs => (some bs, _, _)) (slice_run hpos hrun hcopy)

/-! ## §3 A call of `fat_read` -/

/-- Every turn of a call is as it has to be. -/
def TurnsOk (loose : Bool) (len : ℕ) (f : FatFile) (dev : FatDev) : Prop :=
  if len = 0 then True
  else
    TurnOk loose len f dev ∧
      match readTurn len f dev with
      | (none, _, _) => True
      | (some _, f', dev') =>
        TurnsOk (decide (fatBufferSize < len)) (len - copyLen f f.posn.toNat len) f' dev'
termination_by len
decreasing_by
  have hpos := copyLen_pos f f.posn.toNat ‹¬len = 0›
  omega

theorem SameFile.trans {f'' : FatFile} (h : SameFile f f') (h' : SameFile f' f'') :
    SameFile f f'' :=
  ⟨h'.1.trans h.1, h'.2.1.trans h.2.1, h'.2.2.1.trans h.2.2.1, h'.2.2.2.trans h.2.2.2⟩

theorem copyLen_le (f : FatFile) (pos len : ℕ) : copyLen f pos len ≤ len := Nat.min_le_left _ _

theorem runLength_le (f : FatFile) (fuel : ℕ) (sector : ℤ) (index : ℕ) :
    runLength f fuel sector index ≤ fuel + 1 := by
  induction fuel generalizing sector index with
  | zero => exact Nat.le_refl 1
  | succ fuel ih =>
    have hle := ih (wrap32 (sector + 1)) (index + 1)
    rw [runLength]
    split <;> omega

/-- Behind a turn of the large path something is left. -/
theorem copyLen_lt (f : FatFile) (pos : ℕ) (h : fatBufferSize < len) : copyLen f pos len < len := by
  have hle := runLength_le f (fatBufferSize / sectorSize - 1) (f.sector (pos / sectorSize))
    (pos / sectorSize)
  rw [copyLen, turnSectors, if_neg (by omega)]
  simp only [fatBufferSize, sectorSize] at *
  omega

/-- **The loop of `fat_read`**: it fails, or it reads the file and no access has failed. -/
theorem readLoop_tagged (htag : loose = false → f.Tagged) (hbytes : dev.bytes = f.bytes)
    (hposn : 0 ≤ f.posn) (hok : TurnsOk loose len f dev) (hloose : loose = true → len ≠ 0)
    (buf : List UInt8) :
    (∃ f' dev', readLoop len f dev buf = (none, f', dev') ∧ SameFile f f' ∧ f'.Tagged) ∨
    (∃ f' dev', readLoop len f dev buf =
        (some (buf ++ f.contents.slice f.posn.toNat len), f', dev') ∧
      SameFile f f' ∧ f'.Tagged ∧ dev'.failed = dev.failed) := by
  fun_induction readLoop len f dev buf generalizing loose with
  | case1 f dev buf =>
    right
    refine ⟨f, dev, by rw [Mem.slice, List.append_nil], ⟨rfl, rfl, rfl, rfl⟩, ?_, rfl⟩
    apply htag
    rw [← Bool.not_eq_true]
    exact fun h => hloose h rfl
  | case2 len f dev buf hlen f' dev' hturn =>
    left
    rw [TurnsOk, if_neg hlen] at hok
    rcases readTurn_cases htag hbytes hok.1 with
      ⟨f₁, hfail, hsame, htag'⟩ | ⟨f₁, dev₁, hread, -⟩
    · rw [hfail] at hturn
      cases hturn
      exact ⟨_, _, rfl, hsame, htag'⟩
    · rw [hread] at hturn
      cases hturn
  | case3 len f dev buf hlen bytes f' dev' hturn ih =>
    rw [TurnsOk, if_neg hlen] at hok
    obtain ⟨hok, hrest⟩ := hok
    rcases readTurn_cases htag hbytes hok with
      ⟨f₁, hfail, -⟩ | ⟨f₁, dev₁, hread, hsame, htag', hposn', hdev, hfailed⟩
    · rw [hfail] at hturn
      cases hturn
    · rw [hread] at hturn
      cases hturn
      rw [hread] at hrest
      have hle := copyLen_le f f.posn.toNat len
      have hbytes' : dev'.bytes = f'.bytes := hdev.trans (hbytes.trans hsame.1.symm)
      have hnext : f'.posn.toNat = f.posn.toNat + copyLen f f.posn.toNat len := by omega
      have htag₁ : decide (fatBufferSize < len) = false → f'.Tagged := by
        intro hsmall
        apply htag'
        simpa using hsmall
      have hleft : decide (fatBufferSize < len) = true → len - copyLen f f.posn.toNat len ≠ 0 := by
        intro hlarge
        have hlt := copyLen_lt f f.posn.toNat (of_decide_eq_true hlarge)
        omega
      rcases ih htag₁ hbytes' (by omega) hrest hleft with
        ⟨f₂, dev₂, hloop, hsame₂, htag₂⟩ | ⟨f₂, dev₂, hloop, hsame₂, htag₂, hfailed₂⟩
      · left
        exact ⟨f₂, dev₂, hloop, hsame.trans hsame₂, htag₂⟩
      · right
        refine ⟨f₂, dev₂, ?_, hsame.trans hsame₂, htag₂, hfailed₂.trans hfailed⟩
        -- the bytes of this turn and those of the others
        have hsplit : len = copyLen f f.posn.toNat len + (len - copyLen f f.posn.toNat len) := by
          omega
        rw [hloop, hsame.contents, hnext, List.append_assoc, ← Mem.slice_append, ← hsplit]

/-- What a call of `fat_read` has to be like: in front of the end of the file it is not in front of
    its start, and its turns are as they have to be. -/
def ReadOk (len : ℕ) (f : FatFile) (dev : FatDev) : Prop :=
  f.posn < f.file.fileSize → 0 ≤ f.posn ∧ TurnsOk false (clipLen f len) f dev

/-- A call of `fat_read` has a result, keeps the buffer in step, fails when an access does, and
    returns bytes of the file and no others. -/
def ReadFine (len : ℕ) (f : FatFile) (dev : FatDev) : Prop :=
  ∃ r f' dev', fatRead len f dev = some (r, f', dev') ∧ f'.Tagged ∧
    (dev'.failed = true → r = none) ∧
    ∀ buf, r = some buf → buf = f.contents.slice f.posn.toNat (clipLen f len)

/-- **`fat_read`** is right where its turns are as they have to be. -/
theorem fatRead_fine (htag : f.Tagged) (hbytes : dev.bytes = f.bytes) (hdev : dev.failed = false)
    (hok : ReadOk len f dev) : ReadFine len f dev := by
  unfold ReadFine fatRead
  by_cases hend : f.posn ≥ f.file.fileSize
  · rw [if_pos hend]
    exact ⟨none, f, dev, rfl, htag, fun _ => rfl, fun buf h => by cases h⟩
  · obtain ⟨hposn, hturns⟩ := hok (by omega)
    rw [if_neg hend, if_neg (by omega)]
    rcases readLoop_tagged (fun _ => htag) hbytes hposn hturns (fun h => by cases h) [] with
      ⟨f', dev', hloop, hsame, htag'⟩ | ⟨f', dev', hloop, hsame, htag', hfailed⟩
    · rw [hloop]
      exact ⟨none, _, dev', rfl, htag', fun _ => rfl, fun buf h => by cases h⟩
    · rw [hloop]
      refine ⟨_, f', dev', rfl, htag', ?_, ?_⟩
      · intro htrue
        rw [hfailed, hdev] at htrue
        cases htrue
      · intro buf hbuf
        rw [← Option.some.inj hbuf, List.nil_append]

/-! ## §4 Chains that are read -/

variable {disk : FatDisk} {fsc : FatSc} {c : FatCache} {flag fuel : ℕ} {io io' : FatIO}
  {links : List ℕ}

/-- What a device holds, as a disk. -/
def cleanDisk (bytes : Mem) : FatDisk := ⟨bytes, fun _ _ => none⟩

/-- The links that lead on from a cluster, up to an end mark. -/
def Linked (bytes : Mem) (fsc : FatSc) : ℕ → List ℕ → Prop
  | a, [] => fsc.fatType.endMark ≤ fieldAt512 (cleanDisk bytes) fsc (fsc.wrapEntry a)
  | a, b :: links =>
    fieldAt512 (cleanDisk bytes) fsc (fsc.wrapEntry a) = b ∧ b < fsc.fatType.endMark ∧
      Linked bytes fsc b links

theorem Linked.unique {bytes : Mem} {a : ℕ} {links links' : List ℕ} (h : Linked bytes fsc a links)
    (h' : Linked bytes fsc a links') : links = links' := by
  induction links generalizing a links' with
  | nil =>
    cases links' with
    | nil => rfl
    | cons b links' =>
      obtain ⟨hfield, hlt, -⟩ := h'
      unfold Linked at h
      omega
  | cons b links ih =>
    obtain ⟨hfield, hlt, hrest⟩ := h
    cases links' with
    | nil =>
      unfold Linked at h'
      omega
    | cons b' links' =>
      obtain ⟨hfield', -, hrest'⟩ := h'
      obtain rfl : b = b' := hfield.symm.trans hfield'
      rw [ih hrest hrest']

/-- **The field** of any number is what a call returns when the sectors can be read. -/
theorem getFatEntry_reads (hc : Coherent disk fsc c) (hflag : flag < 2 ^ 32)
    (h : SectorsRead disk fsc c (fsc.wrapEntry flag)) :
    ∃ c', getFatEntry disk fsc flag c = (fieldAt512 disk fsc (fsc.wrapEntry flag), c') ∧
      Coherent disk fsc c' := by
  obtain ⟨hfirst, hsecond⟩ := h
  rw [getFatEntry, fieldAt512]
  cases htype : fsc.fatType with
  | fat12 =>
    simp only [FatSc.wrapEntry, FatSc.Straddles, FatSc.sectorOf, htype, true_and]
      at hfirst hsecond ⊢
    apply getFat12_ok hc _ hfirst hsecond
    simp only [sectorSize]
    omega
  | fat16 =>
    simp only [FatSc.wrapEntry, FatSc.sectorOf, htype] at hfirst ⊢
    have hbyte : u32 (flag * 2) = 2 * (flag % 2 ^ 31) := by
      unfold u32
      omega
    have hlt : 2 * (flag % 2 ^ 31) / sectorSize + 1 < 2 ^ 31 := by
      simp only [sectorSize]
      omega
    obtain ⟨c', hneed, hcoherent, hcell⟩ := needSector_at hc hlt hfirst
    have hin : 2 * (flag % 2 ^ 31) % sectorSize + 1 < sectorSize := by
      simp only [sectorSize]
      omega
    have hzero := hcell 0 (by omega)
    rw [Nat.add_zero, Nat.add_zero] at hzero
    refine ⟨c', ?_, hcoherent⟩
    simp only [hbyte, hneed]
    rw [tableField, Mem.half, ← hcell 1 hin, ← hzero, Nat.mul_comm 256]
  | fat32 =>
    simp only [FatSc.wrapEntry, FatSc.sectorOf, htype] at hfirst ⊢
    have hbyte : u32 (flag * 4) = 4 * (flag % 2 ^ 30) := by
      unfold u32
      omega
    have hlt : 4 * (flag % 2 ^ 30) / sectorSize + 1 < 2 ^ 31 := by
      simp only [sectorSize]
      omega
    obtain ⟨c', hneed, hcoherent, hcell⟩ := needSector_at hc hlt hfirst
    have hin : 4 * (flag % 2 ^ 30) % sectorSize + 3 < sectorSize := by
      simp only [sectorSize]
      omega
    have hzero := hcell 0 (by omega)
    rw [Nat.add_zero, Nat.add_zero] at hzero
    refine ⟨c', ?_, hcoherent⟩
    simp only [hbyte, hneed]
    rw [tableField, Mem.word, ← hcell 1 (by omega), ← hcell 2 (by omega), ← hcell 3 hin,
      ← hzero, Nat.mul_comm 256, Nat.mul_comm 65536, Nat.mul_comm 16777216]

/-- Where no access fails, an entry is the field of the table. -/
theorem entryAt_read (hc : Coherent (cleanDisk io.dev.bytes) fsc io.cache) (hflag : flag < 2 ^ 32)
    (hread : (entryAt fsc flag io).2.dev.failed = false) :
    (entryAt fsc flag io).1 = fieldAt512 (cleanDisk io.dev.bytes) fsc (fsc.wrapEntry flag) ∧
      Coherent (cleanDisk io.dev.bytes) fsc (entryAt fsc flag io).2.cache ∧
      io.dev.failed = false := by
  unfold entryAt at hread ⊢
  simp only [FatDev.after, Bool.or_eq_false_iff, Bool.not_eq_eq_eq_not, Bool.not_false,
    decide_eq_true_eq] at hread
  obtain ⟨hbefore, hsectors⟩ := hread
  have hnow : Coherent io.dev.now fsc io.cache := hc
  obtain ⟨c', hcall, hcoherent⟩ := getFatEntry_reads hnow hflag hsectors
  dsimp only
  rw [hcall]
  exact ⟨rfl, hcoherent, hbefore⟩

theorem entryAt_bytes (fsc : FatSc) (flag : ℕ) (io : FatIO) :
    (entryAt fsc flag io).2.dev.bytes = io.dev.bytes := rfl

/-- A failure stays on record. -/
theorem chainLinks_failed (h : chainLinks fsc fuel flag io = some (links, io'))
    (hread : io'.dev.failed = false) : io.dev.failed = false := by
  induction fuel generalizing flag io links with
  | zero => cases h
  | succ fuel ih =>
    have hafter : (entryAt fsc flag io).2.dev.failed = false → io.dev.failed = false := by
      intro hfailed
      simp only [entryAt, FatDev.after, Bool.or_eq_false_iff] at hfailed
      exact hfailed.1
    rw [chainLinks] at h
    generalize entryAt fsc flag io = next at h hafter
    obtain ⟨entry, io₁⟩ := next
    dsimp only at h hafter
    by_cases hend : fsc.fatType.endMark ≤ entry
    · rw [if_pos hend] at h
      cases h
      exact hafter hread
    · rw [if_neg hend] at h
      obtain ⟨⟨links₁, io₂⟩, hrest, heq⟩ := Option.map_eq_some_iff.mp h
      cases heq
      exact hafter (ih hrest)

/-- **A loop over a chain** in which no access fails ends where the table does. -/
theorem chainLinks_linked (h : chainLinks fsc fuel flag io = some (links, io'))
    (hread : io'.dev.failed = false) (hc : Coherent (cleanDisk io.dev.bytes) fsc io.cache)
    (hflag : flag < 2 ^ 32) :
    Linked io.dev.bytes fsc flag links ∧ Coherent (cleanDisk io.dev.bytes) fsc io'.cache ∧
      io'.dev.bytes = io.dev.bytes ∧ io.dev.failed = false := by
  induction fuel generalizing flag io links with
  | zero => cases h
  | succ fuel ih =>
    have hentry := entryAt_read hc hflag
    have hbytes := entryAt_bytes fsc flag io
    have hmark := endMark_le fsc.fatType
    rw [chainLinks] at h
    generalize entryAt fsc flag io = next at h hentry hbytes
    obtain ⟨entry, io₁⟩ := next
    dsimp only at h hentry hbytes
    by_cases hend : fsc.fatType.endMark ≤ entry
    · rw [if_pos hend] at h
      cases h
      obtain ⟨hfield, hcoherent, hbefore⟩ := hentry hread
      exact ⟨by rw [Linked, ← hfield]; exact hend, hcoherent, hbytes, hbefore⟩
    · rw [if_neg hend] at h
      obtain ⟨⟨links₁, io₂⟩, hrest, heq⟩ := Option.map_eq_some_iff.mp h
      cases heq
      by_cases hfirst : io₁.dev.failed = false
      · obtain ⟨hfield, hcoherent, hbefore⟩ := hentry hfirst
        rw [← hbytes] at hcoherent
        obtain ⟨hlinked, hcoherent', hbytes', -⟩ := ih hrest hcoherent (by omega)
        rw [hbytes] at hlinked hcoherent' hbytes'
        exact ⟨⟨hfield.symm, by omega, hlinked⟩, hcoherent', hbytes', hbefore⟩
      · -- a failure is not forgotten
        exfalso
        apply hfirst
        exact chainLinks_failed hrest hread

/-- What a search keeps: the device holds the bytes, and the cached sector of the table is one. -/
def Steady (bytes : Mem) (fsc : Option FatSc) (io : FatIO) : Prop :=
  io.dev.bytes = bytes ∧ ∀ sc, fsc = some sc → Coherent (cleanDisk bytes) sc io.cache

/-- A chain has all the clusters that the table links. -/
def ChainComplete (bytes : Mem) (fsc : Option FatSc) (start : ℕ) (chain : FatChain) : Prop :=
  ∀ sc, fsc = some sc → ∃ links, chain.entries = start :: links ∧
    chain.count = links.length + 1 ∧ Linked bytes sc start links

variable {bytes : Mem} {sc : Option FatSc} {start : ℕ} {chain chain' : FatChain}

/-- **`fat_getChain`** in which no access fails has the whole chain. -/
theorem getChain_complete (h : getChain sc fuel start io = some (chain, io'))
    (hread : io'.dev.failed = false) (hsteady : Steady bytes sc io) (hstart : start < 2 ^ 32) :
    ChainComplete bytes sc start chain ∧ Steady bytes sc io' ∧ io.dev.failed = false := by
  cases sc with
  | none =>
    cases h
    exact ⟨fun sc hsc => (by cases hsc), hsteady, hread⟩
  | some fsc =>
    obtain ⟨hbytes, hcoherent⟩ := hsteady
    have hc := hcoherent fsc rfl
    rw [getChain] at h
    obtain ⟨⟨counted, io₁⟩, hfirst, h⟩ := Option.bind_eq_some_iff.mp h
    obtain ⟨⟨links, io₂⟩, hsecond, heq⟩ := Option.map_eq_some_iff.mp h
    cases heq
    have hread₁ := chainLinks_failed hsecond hread
    rw [← hbytes] at hc
    obtain ⟨hlinked, hc₁, hbytes₁, hbefore⟩ := chainLinks_linked hfirst hread₁ hc hstart
    rw [← hbytes₁] at hc₁
    obtain ⟨hlinked', hc₂, hbytes₂, -⟩ := chainLinks_linked hsecond hread hc₁ hstart
    rw [hbytes₁] at hlinked' hc₂
    rw [hbytes] at hlinked hlinked' hc₂
    refine ⟨?_, ⟨hbytes₂.trans (hbytes₁.trans hbytes), ?_⟩, hbefore⟩
    · intro sc hsc
      obtain rfl := Option.some.inj hsc
      exact ⟨links, rfl, by rw [hlinked.unique hlinked'], hlinked'⟩
    · intro sc hsc
      obtain rfl := Option.some.inj hsc
      exact hc₂

theorem getChain_failed (h : getChain sc fuel start io = some (chain, io'))
    (hread : io'.dev.failed = false) : io.dev.failed = false := by
  cases sc with
  | none =>
    cases h
    exact hread
  | some fsc =>
    rw [getChain] at h
    obtain ⟨⟨counted, io₁⟩, hfirst, h⟩ := Option.bind_eq_some_iff.mp h
    obtain ⟨⟨links, io₂⟩, hsecond, heq⟩ := Option.map_eq_some_iff.mp h
    cases heq
    exact chainLinks_failed hfirst (chainLinks_failed hsecond hread)

/-! ## §5 Searches -/

/-- What a scan leaves alone: the cached sector and what the device holds; a failure stays on
    record, and a cluster has 32 bits. -/
structure ScanKeeps (s s' : Scan) : Prop where
  cache_eq : s'.dir.io.cache = s.dir.io.cache
  bytes_eq : s'.dir.io.dev.bytes = s.dir.io.dev.bytes
  failed : s'.dir.io.dev.failed = false → s.dir.io.dev.failed = false
  cluster_lt : s.filee.cluster < 2 ^ 32 → s'.filee.cluster < 2 ^ 32

theorem ScanKeeps.refl (s : Scan) : ScanKeeps s s := ⟨rfl, rfl, id, id⟩

theorem ScanKeeps.trans {s s' s'' : Scan} (h : ScanKeeps s s') (h' : ScanKeeps s' s'') :
    ScanKeeps s s'' where
  cache_eq := h'.cache_eq.trans h.cache_eq
  bytes_eq := h'.bytes_eq.trans h.bytes_eq
  failed := fun hread => h.failed (h'.failed hread)
  cluster_lt := fun hlt => h'.cluster_lt (h.cluster_lt hlt)

theorem Slot.half_lt (d : Slot) (i : ℕ) : d.half i < 65536 := by
  have hlow := (d.at i).toNat_lt
  have hhigh := (d.at (i + 1)).toNat_lt
  unfold Slot.half
  omega

theorem parseDirEntries_cluster (dirbuf : ℕ → Slot) (dirc : ℕ) (filee : FileEntry) :
    (parseDirEntries dirbuf dirc filee).cluster < 2 ^ 32 := by
  have hstart := (dirbuf dirc).half_lt 26
  have hhigh := (dirbuf dirc).half_lt 20
  change (dirbuf dirc).half 26 + 65536 * (dirbuf dirc).half 20 < 2 ^ 32
  omega

theorem scanSlot_keeps (name : CStr) (dirList : Bool) (d : Slot) (s : Scan) :
    ScanKeeps s (scanSlot name dirList d s).2 := by
  unfold scanSlot
  split
  · exact .refl s
  · split
    · exact .refl s
    · split
      · exact ⟨rfl, rfl, id, id⟩
      · dsimp only
        split <;> exact ⟨rfl, rfl, id, fun _ => parseDirEntries_cluster _ _ _⟩

theorem scanSlots_keeps (name : CStr) (dirList : Bool) (ds : List Slot) (s : Scan) :
    ScanKeeps s (scanSlots name dirList ds s).2 := by
  induction ds generalizing s with
  | nil => exact .refl s
  | cons d ds ih =>
    have hslot := scanSlot_keeps name dirList d s
    rw [scanSlots]
    rcases hscan : scanSlot name dirList d s with ⟨_ | _ | _, s'⟩
    · rw [hscan] at hslot
      exact hslot.trans (ih s')
    · rw [hscan] at hslot
      exact hslot
    · rw [hscan] at hslot
      exact hslot

theorem readAt_dev (partitionStart : ℕ) (sector : ℤ) (count : ℕ) (buffer : Mem) (dev : FatDev) :
    (readAt partitionStart sector count buffer dev).2.2.bytes = dev.bytes ∧
      ((readAt partitionStart sector count buffer dev).2.2.failed = false →
        dev.failed = false) := by
  have hafter : ∀ ok, (dev.after ok).failed = false → dev.failed = false := by
    intro ok hread
    simp only [FatDev.after, Bool.or_eq_false_iff] at hread
    exact hread.1
  rcases readAt_cases partitionStart sector count buffer dev with
    ⟨-, hread⟩ | ⟨-, bytes, -, hread⟩ | ⟨-, -, hread⟩
  all_goals
    rw [hread]
    exact ⟨rfl, hafter _⟩

theorem scanSectors_keeps (partitionStart : ℕ) (name : CStr) (dirList : Bool) (sectors : List ℤ)
    (s : Scan) : ScanKeeps s (scanSectors partitionStart name dirList sectors s).2 := by
  induction sectors generalizing s with
  | nil => exact .refl s
  | cons sector sectors ih =>
    obtain ⟨hbytes, hfailed⟩ :=
      readAt_dev partitionStart sector 1 s.dir.dirBuffer s.dir.io.dev
    rw [scanSectors]
    generalize readAt partitionStart sector 1 s.dir.dirBuffer s.dir.io.dev = read at hbytes hfailed
    obtain ⟨_, dirBuffer, dev⟩ := read
    dsimp only at hbytes hfailed ⊢
    generalize hloaded : ({ s with
      dir := { s.dir with dirBuffer, io := { s.dir.io with dev } } } : Scan) = loaded
    have hload : ScanKeeps s loaded := by
      subst hloaded
      exact ⟨rfl, hbytes, hfailed, id⟩
    have hslots := hload.trans (scanSlots_keeps name dirList (slotsIn dirBuffer) loaded)
    rcases hscan : scanSlots name dirList (slotsIn dirBuffer) loaded with ⟨_ | _ | _, s'⟩
    · rw [hscan] at hslots
      exact hslots.trans (ih s')
    · rw [hscan] at hslots
      exact hslots
    · rw [hscan] at hslots
      exact hslots

variable {vol : FatVol} {dir dir' : DirState} {file : FileEntry} {names : List CStr}

theorem ScanKeeps.steady {s s' : Scan} (h : ScanKeeps s s') (hsteady : Steady bytes sc s.dir.io) :
    Steady bytes sc s'.dir.io := by
  refine ⟨h.bytes_eq.trans hsteady.1, ?_⟩
  rw [h.cache_eq]
  exact hsteady.2

/-- What follows a scan that has found the name: the chain of the entry, and the rest of the path in
    that directory. -/
def enter (vol : FatVol) (fuel : ℕ) (rest : List CStr) (s : Scan) : Option (Search × DirState) :=
  (getChain vol.fsc fuel s.filee.cluster s.dir.io).bind fun (chain, io) =>
    if rest.isEmpty then some (.file s.filee chain, { s.dir with io })
    else fatSubdirscan vol fuel rest chain { s.dir with io }

/-- What a search makes of a scan: how it fails at a slot that has never been used, and how behind
    all slots. -/
def scanOutcome (vol : FatVol) (fuel : ℕ) (rest : List CStr) (unused ends : ℤ) :
    Verdict × Scan → Option (Search × DirState)
  | (.unused, s) => some (.fails unused, s.dir)
  | (.goesOn, s) => some (.fails ends, s.dir)
  | (.found, s) => enter vol fuel rest s

/-- A search that ends with no failure on record began with none, and has found a whole chain. -/
def FindsWhole (bytes : Mem) (sc : Option FatSc) (dir : DirState) (file : FileEntry)
    (chain : FatChain) : Prop :=
  dir.io.dev.failed = false ∧ (Steady bytes sc dir.io → ChainComplete bytes sc file.cluster chain)

theorem enter_whole {s : Scan} (hkeeps : ScanKeeps (.start dir) s)
    (h : enter vol fuel names s = some (.file file chain', dir'))
    (hread : dir'.io.dev.failed = false)
    (hrest : ∀ chain dir, fatSubdirscan vol fuel names chain dir = some (.file file chain', dir') →
      FindsWhole bytes vol.fsc dir file chain') :
    FindsWhole bytes vol.fsc dir file chain' := by
  obtain ⟨⟨chain₁, io₁⟩, hchain, h⟩ := Option.bind_eq_some_iff.mp h
  have hcluster : s.filee.cluster < 2 ^ 32 :=
    hkeeps.cluster_lt (by simp [Scan.start, FileEntry.cluster])
  dsimp only at h hcluster
  by_cases hlast : names.isEmpty = true
  · rw [if_pos hlast] at h
    cases h
    refine ⟨hkeeps.failed (getChain_failed hchain hread), ?_⟩
    intro hsteady
    exact (getChain_complete hchain hread (hkeeps.steady hsteady) hcluster).1
  · -- the rest of the path is looked up in the directory that was found
    rw [if_neg hlast] at h
    obtain ⟨hread₁, hwhole⟩ := hrest chain₁ _ h
    refine ⟨hkeeps.failed (getChain_failed hchain hread₁), ?_⟩
    intro hsteady
    exact hwhole (getChain_complete hchain hread₁ (hkeeps.steady hsteady) hcluster).2.1

/-- **`fat_subdirscan`** in which no access fails finds a whole chain. -/
theorem fatSubdirscan_whole
    (h : fatSubdirscan vol fuel names chain dir = some (.file file chain', dir'))
    (hread : dir'.io.dev.failed = false) : FindsWhole bytes vol.fsc dir file chain' := by
  induction names generalizing chain dir with
  | nil => cases h
  | cons name rest ih =>
    rw [fatSubdirscan] at h
    have hkeeps := scanSectors_keeps vol.partitionStart name (rest.isEmpty && name.isEmpty)
      (chainSectors vol chain) (.start dir)
    dsimp only at h
    generalize scanSectors vol.partitionStart name (rest.isEmpty && name.isEmpty)
      (chainSectors vol chain) (.start dir) = scan at h hkeeps
    obtain ⟨_ | _ | _, s⟩ := scan
    · cases h
    · cases h
    · exact enter_whole hkeeps h hread fun chain dir hrest => ih hrest

theorem fatRootscan_whole (h : fatRootscan vol fuel names dir = some (.file file chain', dir'))
    (hread : dir'.io.dev.failed = false) : FindsWhole bytes vol.fsc dir file chain' := by
  cases names with
  | nil => cases h
  | cons name rest =>
    rw [fatRootscan] at h
    have hkeeps := scanSectors_keeps vol.partitionStart name (rest.isEmpty && name.isEmpty)
      (rootSectors vol) (.start dir)
    dsimp only at h
    generalize scanSectors vol.partitionStart name (rest.isEmpty && name.isEmpty)
      (rootSectors vol) (.start dir) = scan at h hkeeps
    obtain ⟨_ | _ | _, s⟩ := scan
    · cases h
    · cases h
    · exact enter_whole hkeeps h hread fun chain dir hrest => fatSubdirscan_whole hrest hread

/-- **`fat_findfile`** in which no access fails finds a whole chain. -/
theorem fatFindfile_whole {name : CStr}
    (h : fatFindfile vol fuel name dir = some (.file file chain', dir'))
    (hread : dir'.io.dev.failed = false) : FindsWhole bytes vol.fsc dir file chain' := by
  unfold fatFindfile at h
  dsimp only at h
  by_cases htype : vol.fsc.map FatSc.fatType = some .fat32
  · rw [if_pos htype] at h
    obtain ⟨⟨chain₁, io₁⟩, hchain, h⟩ := Option.bind_eq_some_iff.mp h
    obtain ⟨hread₁, hwhole⟩ := fatSubdirscan_whole h hread
    refine ⟨getChain_failed hchain hread₁, ?_⟩
    intro hsteady
    exact hwhole (getChain_complete hchain hread₁ hsteady (by decide)).2.1
  · rw [if_neg htype] at h
    exact fatRootscan_whole h hread

/-! ## §6 Runs -/

variable {partition fd : ℕ} {filename : CStr} {stack : Mem} {dirbuf dirbuf' : ℕ → Slot}

theorem fatInit_bytes (partition : ℕ) (stack : Mem) (dev : FatDev) :
    (fatInit partition stack dev).2.bytes = dev.bytes := by
  have hfirst := (readAt_dev 0 0 1 stack dev).1
  unfold fatInit fatGetPartition
  generalize readAt 0 0 1 stack dev = read at hfirst
  obtain ⟨_, buffer, dev₁⟩ := read
  dsimp only at hfirst ⊢
  by_cases hmark : buffer 510 ≠ 0x55 ∨ buffer 511 ≠ 0xaa
  · rw [if_pos hmark]
    exact hfirst
  · rw [if_neg hmark]
    dsimp only
    have hsecond := (readAt_dev (buffer.word (446 + 16 * partition + 8)) 0 1 stack dev₁).1
    generalize readAt (buffer.word (446 + 16 * partition + 8)) 0 1 stack dev₁ = read at hsecond
    obtain ⟨_, bootsector, dev₂⟩ := read
    dsimp only at hsecond ⊢
    split
    · exact hsecond.trans hfirst
    · cases bpbVol (buffer.word (446 + 16 * partition + 8)) bootsector with
      | none => exact hsecond.trans hfirst
      | some vol => exact hsecond.trans hfirst

/-- An opened file is right: no access has failed, none of its sectors is recorded, and its chain is
    whole. -/
def OpenFine (f : FatFile) (dev : FatDev) : Prop :=
  dev.failed = false ∧ f.Tagged ∧ ChainComplete f.bytes f.vol.fsc f.file.cluster f.chain

/-- **`fat_open`** in which no access fails. -/
theorem fatOpen_fine
    (h : fatOpen fuel partition filename stack dirbuf dev = some (.file f, dirbuf', dev'))
    (hread : dev'.failed = false) : OpenFine f dev' := by
  unfold fatOpen at h
  generalize fatInit partition stack dev = init at h
  obtain ⟨_ | _ | vol, dev₁⟩ := init
  · cases h
  · cases h
  · dsimp only at h
    rcases hfind : fatFindfile vol fuel filename
        ⟨⟨⟨fun _ => 0, -1⟩, dev₁⟩, fun _ => 0, dirbuf⟩ with _ | ⟨file | res, dir⟩
    · rw [hfind] at h
      cases h
    · rw [hfind] at h
      cases h
      obtain ⟨-, hwhole⟩ := fatFindfile_whole hfind hread
      exact ⟨hread, .inl rfl, hwhole ⟨rfl, fun sc _ => .inl rfl⟩⟩
    · rw [hfind] at h
      cases h

/-- The descriptors, and `dirbuf`. -/
structure FatState where
  dirbuf : ℕ → Slot
  file : ℕ → Option FatFile

/-- A call, with what goes wrong at its accesses. -/
inductive FatCall where
  | open (fd fuel partition : ℕ) (filename : CStr) (stack bytes : Mem)
      (faults : ℕ → ℕ → ℕ → Option (List UInt8))
  | read (fd len : ℕ) (faults : ℕ → ℕ → ℕ → Option (List UInt8))
  | lseek (fd : ℕ) (offset : ℤ) (whence : ℕ)

def FatState.next (s : FatState) : FatCall → FatState
  | .open fd fuel partition filename stack bytes faults =>
    match fatOpen fuel partition filename stack s.dirbuf ⟨bytes, faults, false⟩ with
    | some (.file f, dirbuf, _) => { dirbuf, file := Function.update s.file fd (some f) }
    | some (_, dirbuf, _) => { s with dirbuf }
    | none => s
  | .read fd len faults =>
    match s.file fd with
    | none => s
    | some f =>
      match fatRead len f ⟨f.bytes, faults, false⟩ with
      | none => s
      | some (_, f', _) => { s with file := Function.update s.file fd (some f') }
  | .lseek fd offset whence =>
    match s.file fd with
    | none => s
    | some f => { s with file := Function.update s.file fd (some (fatLseek offset whence f).2) }

/-- No access fails while a file is opened; a read is as it has to be. -/
def CallOk (s : FatState) : FatCall → Prop
  | .open _ fuel partition filename stack bytes faults =>
    ∀ opened dirbuf dev,
      fatOpen fuel partition filename stack s.dirbuf ⟨bytes, faults, false⟩ =
        some (opened, dirbuf, dev) → dev.failed = false
  | .read fd len faults => ∀ f, s.file fd = some f → ReadOk len f ⟨f.bytes, faults, false⟩
  | .lseek _ _ _ => True

/-- A file that is opened is right, and so is a read. -/
def CallFine (s : FatState) : FatCall → Prop
  | .open _ fuel partition filename stack bytes faults =>
    ∀ f dirbuf dev,
      fatOpen fuel partition filename stack s.dirbuf ⟨bytes, faults, false⟩ =
        some (.file f, dirbuf, dev) → OpenFine f dev
  | .read fd len faults => ∀ f, s.file fd = some f → ReadFine len f ⟨f.bytes, faults, false⟩
  | .lseek _ _ _ => True

theorem next_open {s : FatState} {bytes : Mem} {faults : ℕ → ℕ → ℕ → Option (List UInt8)}
    (h : fatOpen fuel partition filename stack s.dirbuf ⟨bytes, faults, false⟩ =
      some (.file f, dirbuf, dev)) :
    s.next (.open fd fuel partition filename stack bytes faults) =
      { dirbuf, file := Function.update s.file fd (some f) } := by
  simp only [FatState.next, h]

/-- The sector buffers of all files are in step. -/
def AllTagged (s : FatState) : Prop := ∀ fd f, s.file fd = some f → f.Tagged

theorem AllTagged.update {s : FatState} (h : AllTagged s) (hf : f.Tagged) (fd : ℕ) :
    AllTagged { s with file := Function.update s.file fd (some f) } := by
  intro fd' f' hf'
  dsimp only at hf'
  by_cases heq : fd' = fd
  · rw [heq, Function.update_self] at hf'
    cases hf'
    exact hf
  · rw [Function.update_of_ne heq] at hf'
    exact h fd' f' hf'

theorem fatLseek_tagged (hf : f.Tagged) (offset : ℤ) (whence : ℕ) :
    (fatLseek offset whence f).2.Tagged := by
  unfold fatLseek
  split <;> exact hf

/-- **One call** that is as it has to be. -/
theorem call_fine {s : FatState} {call : FatCall} (hs : AllTagged s) (hok : CallOk s call) :
    CallFine s call := by
  cases call with
  | «open» fd fuel partition filename stack bytes faults =>
    intro f dirbuf dev hopen
    exact fatOpen_fine hopen (hok _ _ _ hopen)
  | read fd len faults =>
    intro f hf
    exact fatRead_fine (hs fd f hf) rfl rfl (hok f hf)
  | lseek fd offset whence => trivial

theorem next_tagged {s : FatState} {call : FatCall} (hs : AllTagged s) (hok : CallOk s call) :
    AllTagged (s.next call) := by
  have hfine := call_fine hs hok
  cases call with
  | «open» fd fuel partition filename stack bytes faults =>
    simp only [FatState.next]
    rcases hopen : fatOpen fuel partition filename stack s.dirbuf ⟨bytes, faults, false⟩ with
      _ | ⟨f | _ | _, dirbuf, dev⟩
    · exact hs
    · exact AllTagged.update (s := { s with dirbuf }) hs (hfine f dirbuf dev hopen).2.1 fd
    · exact hs
    · exact hs
  | read fd len faults =>
    simp only [FatState.next]
    cases hf : s.file fd with
    | none => exact hs
    | some f =>
      obtain ⟨r, f', dev', hread, htag, -⟩ := hfine f hf
      dsimp only
      rw [hread]
      exact hs.update htag fd
  | lseek fd offset whence =>
    simp only [FatState.next]
    cases hf : s.file fd with
    | none => exact hs
    | some f => exact hs.update (fatLseek_tagged (hs fd f hf) offset whence) fd

/-- **Runs with failures**: as long as every call is as it has to be, the files that are opened have
    their whole chains, the recorded sector is the one in the buffer, a failure makes its call fail,
    and a read returns the bytes of the file's own sectors. -/
theorem fatRuns_sound (dirbuf : ℕ → Slot) (calls : List FatCall)
    (hok : EveryStep FatState.next CallOk ⟨dirbuf, fun _ => none⟩ calls) :
    EveryStep FatState.next CallFine ⟨dirbuf, fun _ => none⟩ calls := by
  have hstart : AllTagged ⟨dirbuf, fun _ => none⟩ := by
    intro fd f hf
    cases hf
  have hstep : ∀ s call, AllTagged s → (CallOk s call ∧ CallFine s call ↔ CallOk s call) := by
    intro s call hs
    exact ⟨And.left, fun h => ⟨h, call_fine hs h⟩⟩
  have hboth := (everyStep_iff hstep (fun s call hs h => next_tagged hs h) hstart).mpr hok
  intro before call hprefix
  exact (hboth before call hprefix).2

/-! ## §7 A small volume -/

/-- The cells that are not 0 of a FAT12 volume with a file of one byte. -/
def tinyCells : List (ℕ × UInt8) :=
  [(0, 0xeb), (12, 2), (13, 1), (14, 1), (16, 1), (17, 16), (19, 100), (22, 1), (510, 0x55),
    (511, 0xaa), (515, 0xff), (516, 0x0f), (1024, 65), (1025, 32), (1032, 32), (1035, 32),
    (1050, 2), (1052, 1), (1536, 7)]

def tinyImage : Mem := fun a => (tinyCells.lookup a).getD 0

/-- The file is opened. -/
def openTiny (faults : ℕ → ℕ → ℕ → Option (List UInt8)) : Option (Opened × (ℕ → Slot) × FatDev) :=
  fatOpen 3 0 [65] (fun _ => 0) (fun _ => []) ⟨tinyImage, faults, false⟩

/-- What is seen of an opened file. -/
def glance : Option (Opened × (ℕ → Slot) × FatDev) → Option (Bool × ℤ × ℕ × ℤ)
  | some (.file f, _, dev) => some (dev.failed, f.posn, f.file.fileSize, f.sector 0)
  | _ => none

theorem glance_some {opened : Option (Opened × (ℕ → Slot) × FatDev)} {failed : Bool} {posn : ℤ}
    {size : ℕ} {sector : ℤ} (h : glance opened = some (failed, posn, size, sector)) :
    ∃ f dirbuf dev, opened = some (.file f, dirbuf, dev) ∧ dev.failed = failed ∧ f.posn = posn ∧
      f.file.fileSize = size ∧ f.sector 0 = sector := by
  rcases opened with _ | ⟨f | _ | _, dirbuf, dev⟩
  · cases h
  · cases h
    exact ⟨f, dirbuf, dev, rfl, rfl, rfl, rfl, rfl⟩
  · cases h
  · cases h

theorem openTiny_clean : glance (openTiny fun _ _ _ => none) = some (false, 0, 1, 3) := by
  decide +kernel

/-- The file is opened and read. -/
theorem fatRuns_sound_tiny :
    let calls := [FatCall.open 0 3 0 [65] (fun _ => 0) tinyImage fun _ _ _ => none,
      .read 0 1 fun _ _ _ => none]
    EveryStep FatState.next CallFine ⟨fun _ => [], fun _ => none⟩ calls := by
  intro calls
  apply fatRuns_sound
  obtain ⟨f, dirbuf, dev, hopen, hfailed, hposn, hsize, hsector⟩ := glance_some openTiny_clean
  unfold openTiny at hopen
  rw [everyStep_cons, everyStep_cons]
  refine ⟨?_, ?_, fun before call hprefix => by simp at hprefix⟩
  · intro opened dirbuf' dev' hopen'
    dsimp only at hopen'
    rw [hopen] at hopen'
    cases hopen'
    exact hfailed
  · rw [next_open (s := ⟨fun _ => [], fun _ => none⟩) hopen]
    intro f' hf'
    dsimp only at hf'
    rw [Function.update_self] at hf'
    cases hf'
    intro _
    refine ⟨by rw [hposn], ?_⟩
    have hclip : clipLen f 1 = 1 := by
      rw [clipLen, hposn, hsize]
      rfl
    rw [hclip, TurnsOk, if_neg (by decide)]
    refine ⟨?_, ?_⟩
    · unfold TurnOk
      rw [if_pos (by decide), hposn]
      refine ⟨?_, fun _ => .inr fun bytes hbytes => by cases hbytes⟩
      change f.sector 0 ≠ -1
      rw [hsector]
      decide
    · have hrest : 1 - copyLen f f.posn.toNat 1 = 0 := by
        have hpos : 0 < copyLen f f.posn.toNat 1 := copyLen_pos f f.posn.toNat (by decide)
        omega
      rw [hrest]
      split
      · trivial
      · rw [TurnsOk, if_pos rfl]
        trivial

/-- The table cannot be read, and the file is opened all the same. -/
theorem fatRuns_brokenTable :
    ¬ EveryStep FatState.next CallFine ⟨fun _ => [], fun _ => none⟩
      [FatCall.open 0 3 0 [65] (fun _ => 0) tinyImage fun i _ _ =>
        if 3 ≤ i then some [] else none] := by
  intro h
  have hglance : glance (openTiny fun i _ _ => if 3 ≤ i then some [] else none) =
      some (true, 0, 1, 3) := by
    decide +kernel
  obtain ⟨f, dirbuf, dev, hopen, hfailed, -⟩ := glance_some hglance
  have hfine := h [] _ List.prefix_rfl f dirbuf dev hopen
  rw [hfine.1] at hfailed
  cases hfailed

end Pmon.Fs.Fat
