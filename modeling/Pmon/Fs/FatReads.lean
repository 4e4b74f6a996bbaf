import Pmon.Fs.FatFaults
import Pmon.Fs.RamFile

/-!
# Reading whole files of a FAT volume

On a device that works, and with a chain that leads to a sector for each part of the file and never
twice in a row to the same one, `fat_read` reads what is asked for and moves on by as much.

## Key results

- `readTurn_whole`: one turn of the loop of `fat_read`.
- `readLoop_whole`: the loop reads the file.
- `fatCall_follows`: calls on a file that start in front of its end.
-/

namespace Pmon.Fs.Fat

open Pmon.Lib Pmon.Libc

/-! ## §1 Files and devices -/

/-- Every part of the file has a sector, and not the one of the part before it. -/
structure FatFile.Whole (f : FatFile) : Prop where
  sector_nonneg : ∀ i, i * sectorSize < f.file.fileSize → 0 ≤ f.sector i
  sector_le : ∀ i, i * sectorSize < f.file.fileSize → f.sector i + 64 ≤ 2147483648
  sector_ne : ∀ i, (i + 1) * sectorSize < f.file.fileSize → f.sector (i + 1) ≠ f.sector i

/-- The device gives what is asked for. -/
def FatDev.Works (dev : FatDev) : Prop := ∀ i p n, dev.faults i p n = none

variable {f f' : FatFile} {dev dev' : FatDev} {len pos : ℕ} {sector : ℤ} {buf : List UInt8}
  {loose : Bool}

theorem FatDev.Works.after (h : dev.Works) (ok : Bool) : (dev.after ok).Works :=
  fun i p n => h (i + 1) p n

theorem FatFile.Whole.of_same (h : f.Whole) (hsame : SameFile f f') : f'.Whole := by
  obtain ⟨-, hvol, hfile, hchain⟩ := hsame
  have hsector : f'.sector = f.sector := by
    funext i
    unfold FatFile.sector
    rw [hvol, hchain]
  refine ⟨?_, ?_, ?_⟩
  · rw [hfile, hsector]
    exact h.sector_nonneg
  · rw [hfile, hsector]
    exact h.sector_le
  · rw [hfile, hsector]
    exact h.sector_ne

theorem FatVol.position_nonneg (vol : FatVol) (h : 0 ≤ sector) : 0 ≤ vol.position sector := by
  rw [FatVol.position]
  simp only [sectorSize]
  omega

theorem readAt_works {partitionStart count : ℕ} {buffer : Mem} (h : dev.Works)
    (hsector : 0 ≤ sector) :
    ∃ buffer', readAt partitionStart sector count buffer dev = (true, buffer', dev.after true) := by
  rcases readAt_cases partitionStart sector count buffer dev with
    ⟨hneg, -⟩ | ⟨-, bytes, hfault, -⟩ | ⟨-, -, hread⟩
  · simp only [sectorSize] at hneg
    omega
  · rw [h] at hfault
    cases hfault
  · exact ⟨_, hread⟩

/-! ## §2 One turn -/

/-- What a turn leaves of the device and of `LastSector`. -/
theorem readTurn_works (len : ℕ) (h : dev.Works)
    (hsector : 0 ≤ f.sector (f.posn.toNat / sectorSize)) :
    ∃ bytes f' dev', readTurn len f dev = (some bytes, f', dev') ∧ dev'.Works ∧
      (fatBufferSize < len → f'.lastSector =
        wrap32 (f.sector (f.posn.toNat / sectorSize) + turnSectors f f.posn.toNat len - 1)) := by
  unfold readTurn
  dsimp only
  by_cases hsmall : len ≤ fatBufferSize
  · rw [if_pos hsmall]
    by_cases hlast : f.sector (f.posn.toNat / sectorSize) ≠ f.lastSector
    · obtain ⟨buffer', hread⟩ := @readAt_works dev _ f.vol.partitionStart 1 f.lastSectorBuffer h
        hsector
      rw [loadSector, if_pos hlast, hread]
      exact ⟨_, _, _, rfl, h.after true, fun hlarge => absurd hsmall (by omega)⟩
    · rw [loadSector, if_neg hlast]
      exact ⟨_, _, _, rfl, h, fun hlarge => absurd hsmall (by omega)⟩
  · obtain ⟨buffer', hread⟩ := @readAt_works dev _ f.vol.partitionStart
      (turnSectors f f.posn.toNat len) (fun _ => 0) h hsector
    rw [if_neg hsmall, hread]
    exact ⟨_, _, _, rfl, h.after true, fun _ => rfl⟩

/-- The state in front of a turn with `len` bytes to go; `loose` says that the turn before was one
    of the large path, so that the recorded sector is not in the buffer. -/
structure InLoop (loose : Bool) (len : ℕ) (f : FatFile) (dev : FatDev) : Prop where
  whole : f.Whole
  works : dev.Works
  bytes_eq : dev.bytes = f.bytes
  posn_nonneg : 0 ≤ f.posn
  fits : f.posn.toNat + len ≤ f.file.fileSize
  tagged : loose = false → f.Tagged
  behind : loose = true → len ≠ 0 ∧ 0 < f.posn.toNat / sectorSize ∧
    f.lastSector = f.sector (f.posn.toNat / sectorSize - 1)

theorem InLoop.part_lt (h : InLoop loose len f dev) (hlen : len ≠ 0) :
    f.posn.toNat / sectorSize * sectorSize < f.file.fileSize := by
  have hfloor := Nat.div_mul_le_self f.posn.toNat sectorSize
  have hfits := h.fits
  omega

theorem turnSectors_le (f : FatFile) (pos len : ℕ) : turnSectors f pos len ≤ 64 := by
  rw [turnSectors]
  split
  · decide
  · exact runLength_le f _ _ _

theorem InLoop.turnOk (h : InLoop loose len f dev) (hlen : len ≠ 0) : TurnOk loose len f dev := by
  have hpart := h.part_lt hlen
  have hsector := h.whole.sector_nonneg _ hpart
  have hserved : ∀ count, Served f dev (f.sector (f.posn.toNat / sectorSize)) count := fun count =>
    ⟨f.vol.position_nonneg hsector, h.works _ _ _⟩
  unfold TurnOk
  dsimp only
  split
  · refine ⟨by omega, ?_⟩
    cases loose with
    | false =>
      intro _
      refine Or.inr fun bytes hfault => ?_
      rw [h.works] at hfault
      cases hfault
    | true =>
      -- The recorded sector is that of the part before.
      obtain ⟨-, hpos, hlast⟩ := h.behind rfl
      obtain ⟨i, hi⟩ : ∃ i, f.posn.toNat / sectorSize = i + 1 := ⟨_, (Nat.sub_add_cancel hpos).symm⟩
      refine ⟨?_, hserved 1⟩
      rw [hi] at hlast hpart ⊢
      rw [hlast]
      exact h.whole.sector_ne i hpart
  · have hle := h.whole.sector_le _ hpart
    have hcount := turnSectors_le f f.posn.toNat len
    exact ⟨by omega, fun _ => hserved _⟩

/-- **One turn** reads a part of the file, and leaves the state for the next one. -/
theorem readTurn_whole (h : InLoop loose len f dev) (hlen : len ≠ 0) :
    ∃ f' dev', readTurn len f dev =
        (some (f.contents.slice f.posn.toNat (copyLen f f.posn.toNat len)), f', dev') ∧
      SameFile f f' ∧ f'.posn = f.posn + copyLen f f.posn.toNat len ∧
      InLoop (decide (fatBufferSize < len)) (len - copyLen f f.posn.toNat len) f' dev' := by
  have hpart := h.part_lt hlen
  obtain ⟨bytes, f₁, dev₁, hturn, hworks, hlast⟩ :=
    readTurn_works len h.works (h.whole.sector_nonneg _ hpart)
  rcases readTurn_cases h.tagged h.bytes_eq (h.turnOk hlen) with
    ⟨f₂, hfail, -⟩ | ⟨f₂, dev₂, hread, hsame, htag, hposn, hbytes, -⟩
  · rw [hturn] at hfail
    cases hfail
  rw [hturn] at hread
  obtain ⟨rfl, rfl, rfl⟩ : f₁ = f₂ ∧ dev₁ = dev₂ ∧
      bytes = f.contents.slice f.posn.toNat (copyLen f f.posn.toNat len) := by
    simp only [Prod.mk.injEq, Option.some.injEq] at hread
    exact ⟨hread.2.1, hread.2.2, hread.1⟩
  have hle := copyLen_le f f.posn.toNat len
  have hnonneg := h.posn_nonneg
  have hfits := h.fits
  have hat : f₁.posn.toNat = f.posn.toNat + copyLen f f.posn.toNat len := by omega
  refine ⟨f₁, dev₁, hturn, hsame, hposn, h.whole.of_same hsame, hworks, ?_, by omega, ?_, ?_, ?_⟩
  · rw [hbytes, h.bytes_eq, hsame.1]
  · rw [hsame.2.2.1]
    omega
  · intro hsmall
    exact htag (by simpa using hsmall)
  · intro hlarge
    have hlarge := of_decide_eq_true hlarge
    have hless := copyLen_lt f f.posn.toNat hlarge
    have hcount := turnSectors_le f f.posn.toNat len
    have hrun : turnSectors f f.posn.toNat len =
        runLength f (fatBufferSize / sectorSize - 1) (f.sector (f.posn.toNat / sectorSize))
          (f.posn.toNat / sectorSize) := by
      rw [turnSectors, if_neg (by omega)]
    have hpos := runLength_pos f (fatBufferSize / sectorSize - 1)
      (f.sector (f.posn.toNat / sectorSize)) (f.posn.toNat / sectorSize)
    rw [← hrun] at hpos
    -- A turn of the large path ends with a sector.
    have hcopy : copyLen f f.posn.toNat len =
        sectorSize * turnSectors f f.posn.toNat len - f.posn.toNat % sectorSize := by
      rw [copyLen] at hless ⊢
      omega
    have hindex : f₁.posn.toNat / sectorSize =
        f.posn.toNat / sectorSize + turnSectors f f.posn.toNat len := by
      rw [hat, hcopy]
      simp only [sectorSize]
      omega
    have hle' := h.whole.sector_le _ hpart
    have hlow := h.whole.sector_nonneg _ hpart
    have hsectors := runLength_sectors f (fatBufferSize / sectorSize - 1)
      (f.posn.toNat / sectorSize) (by rw [← hrun]; omega)
      (j := turnSectors f f.posn.toNat len - 1) (by rw [← hrun]; omega)
    have hsector : f₁.sector = f.sector := by
      funext i
      unfold FatFile.sector
      rw [hsame.2.1, hsame.2.2.2]
    refine ⟨by omega, ?_, ?_⟩
    · rw [hindex]
      exact Nat.lt_of_lt_of_le hpos (Nat.le_add_left _ _)
    rw [hlast hlarge, hindex, hsector, wrap32_of_bounds (by omega) (by omega),
      Nat.add_sub_assoc (by omega), hsectors]
    omega

/-! ## §3 The loop, and calls -/

/-- **The loop of `fat_read`** reads what it has to. -/
theorem readLoop_whole (h : InLoop loose len f dev) (buf : List UInt8) :
    ∃ f' dev', readLoop len f dev buf =
        (some (buf ++ f.contents.slice f.posn.toNat len), f', dev') ∧
      SameFile f f' ∧ f'.posn = f.posn + len ∧ InLoop false 0 f' dev' := by
  fun_induction readLoop len f dev buf generalizing loose with
  | case1 f dev buf =>
    refine ⟨f, dev, by rw [Mem.slice, List.append_nil], ⟨rfl, rfl, rfl, rfl⟩,
      (Int.add_zero _).symm, ?_⟩
    have htag : f.Tagged := by
      apply h.tagged
      rw [← Bool.not_eq_true]
      exact fun hloose => (h.behind hloose).1 rfl
    exact { h with tagged := fun _ => htag, behind := fun hloose => by cases hloose }
  | case2 len f dev buf hlen f' dev' hturn =>
    obtain ⟨f₁, dev₁, hread, -⟩ := readTurn_whole h hlen
    rw [hread] at hturn
    cases hturn
  | case3 len f dev buf hlen bytes f' dev' hturn ih =>
    obtain ⟨f₁, dev₁, hread, hsame, hposn, hin⟩ := readTurn_whole h hlen
    rw [hread] at hturn
    cases hturn
    have hle := copyLen_le f f.posn.toNat len
    have hnonneg := h.posn_nonneg
    obtain ⟨f₂, dev₂, hloop, hsame₂, hposn₂, hin₂⟩ := ih hin
    refine ⟨f₂, dev₂, ?_, hsame.trans hsame₂, by omega, hin₂⟩
    -- the bytes of this turn and those of the others
    have hsplit : len = copyLen f f.posn.toNat len + (len - copyLen f f.posn.toNat len) := by
      omega
    have hnext : f'.posn.toNat = f.posn.toNat + copyLen f f.posn.toNat len := by omega
    rw [hloop, hsame.contents, hnext, List.append_assoc, ← Mem.slice_append, ← hsplit]

/-- A file that is open on a device. -/
structure FatOpen where
  f : FatFile
  dev : FatDev

/-- `fat_read` and `fat_lseek`. -/
def fatCall : FileCall → FatOpen → FileReply × FatOpen
  | .lseek offset whence, s =>
    let (p, f) := fatLseek offset whence s.f
    (.posn p, { s with f })
  | .read n, s =>
    match fatRead n s.f s.dev with
    | none => (.astray, s)
    | some (none, f, dev) => (.bytes (-1) none, ⟨f, dev⟩)
    | some (some buf, f, dev) => (.bytes (wrap32 buf.length) (some buf), ⟨f, dev⟩)

def FatOpen.posn (s : FatOpen) : ℤ := s.f.posn

/-- What the file holds. -/
def FatOpen.file (s : FatOpen) : RandomFile := ⟨s.f.file.fileSize, s.f.contents⟩

/-- A whole file on a device that works, whose recorded sector is the one in the buffer. -/
structure FatOpen.Valid (s : FatOpen) : Prop where
  whole : s.f.Whole
  works : s.dev.Works
  bytes_eq : s.dev.bytes = s.f.bytes
  tagged : s.f.Tagged
  fileSize_lt : s.f.file.fileSize < 4294967296

/-- **When a call goes right**: `lseek` stays inside an `off_t`; a read starts in front of the end
    of the file, and there are fewer than 2^31 bytes to read. -/
def FatOpen.Meets (s : FatOpen) : FileCall → Prop
  | .lseek offset whence => ∀ p, s.file.target s.posn offset whence = some p → IsOff p
  | .read n => 0 ≤ s.posn ∧ s.posn < s.file.size ∧ s.file.count s.posn n < 2147483648

theorem fatLseek_eq (offset : ℤ) (whence : ℕ) (f : FatFile) :
    fatLseek offset whence f =
      match lseekTo f.file.fileSize f.posn offset whence with
      | some p => (p, { f with posn := p })
      | none => (-1, f) := by
  match whence with
  | 0 => rfl
  | 1 => rfl
  | 2 => rfl
  | _ + 3 => rfl

variable {s : FatOpen}

theorem FatOpen.Valid.same (h : s.Valid) (hsame : SameFile s.f f') (hin : InLoop false 0 f' dev') :
    FatOpen.Valid ⟨f', dev'⟩ :=
  ⟨hin.whole, hin.works, hin.bytes_eq, hin.tagged rfl, by
    change f'.file.fileSize < _
    rw [hsame.2.2.1]
    exact h.fileSize_lt⟩

/-- **Calls on a file of a FAT volume.** -/
theorem fatCall_follows {l : FileCall} (hs : s.Valid) (h : s.Meets l) :
    CallFollows fatCall FatOpen.posn FatOpen.file s l ∧ (nextState fatCall s l).Valid := by
  cases l with
  | lseek offset whence =>
    have hto : lseekTo s.f.file.fileSize s.f.posn offset whence =
        s.file.target s.posn offset whence := lseekTo_eq (f := s.file) h
    cases htarget : s.file.target s.posn offset whence with
    | none =>
      rw [htarget] at hto
      have hcall : fatCall (.lseek offset whence) s = (.posn (-1), s) := by
        rw [fatCall, fatLseek_eq, hto]
      refine ⟨CallFollows.of_eq (t := s) ?_ ?_ rfl, ?_⟩
      · rw [RandomFile.answer_lseek_none _ htarget, hcall]
      · rw [RandomFile.answer_lseek_none _ htarget]
      · rw [nextState, hcall]
        exact hs
    | some p =>
      rw [htarget] at hto
      have hcall : fatCall (.lseek offset whence) s =
          (.posn p, { s with f := { s.f with posn := p } }) := by
        rw [fatCall, fatLseek_eq, hto]
      refine ⟨CallFollows.of_eq (t := { s with f := { s.f with posn := p } }) ?_ ?_ rfl, ?_⟩
      · rw [RandomFile.answer_lseek _ htarget, hcall]
      · rw [RandomFile.answer_lseek _ htarget]
        rfl
      · rw [nextState, hcall]
        exact ⟨hs.whole.of_same ⟨rfl, rfl, rfl, rfl⟩, hs.works, hs.bytes_eq, hs.tagged,
          hs.fileSize_lt⟩
  | read n =>
    obtain ⟨hnonneg, hlt, hcount⟩ := h
    have hsize := hs.fileSize_lt
    have hmin : s.file.count s.posn n = min n (s.f.file.fileSize - s.f.posn.toNat) :=
      RandomFile.count_of_le _ hnonneg (Int.le_of_lt hlt)
    change s.f.posn < s.f.file.fileSize at hlt
    change 0 ≤ s.f.posn at hnonneg
    have hclip : clipLen s.f n = s.file.count s.posn n := by
      rw [hmin, clipLen]
      split <;> omega
    have hle : s.f.posn.toNat + s.file.count s.posn n ≤ s.f.file.fileSize := by omega
    have hin : InLoop false (s.file.count s.posn n) s.f s.dev :=
      ⟨hs.whole, hs.works, hs.bytes_eq, hnonneg, hle, fun _ => hs.tagged, fun hloose => by
        cases hloose⟩
    obtain ⟨f', dev', hloop, hsame, hposn, hin'⟩ := readLoop_whole hin []
    have hcall : fatCall (.read n) s = (.bytes (s.file.count s.posn n)
        (some (s.file.byte.slice s.posn.toNat (s.file.count s.posn n))), ⟨f', dev'⟩) := by
      rw [fatCall, fatRead, if_neg (by omega), if_neg (by omega), hclip, hloop]
      dsimp only
      rw [List.nil_append, Mem.length_slice, wrap32_of_bounds (by omega) (by omega)]
      rfl
    refine ⟨CallFollows.of_eq (t := ⟨f', dev'⟩) hcall hposn ?_, ?_⟩
    · rw [FatOpen.file, FatOpen.file, hsame.contents, hsame.2.2.1]
    · rw [nextState, hcall]
      exact hs.same hsame hin'

end Pmon.Fs.Fat
