import Pmon.Fs.Devio
import Pmon.Lib.RandomFile

/-!
# Files of an ISO 9660 disc

`iso9660_read` and `iso9660_lseek` of `pmon/fs/iso9660fs.c` on a descriptor that is open: an entry
of `openfile`, whose fields are of type `int`.  A read goes block by block and stops behind the end
of the file, at the end of a block.

## Key results

- `isoTurn_eq`: a turn of the loop reads what is left of a block, or less.
- `isoReadLoop_eq`: reads that end in the file, or whose file ends with a block.
- `isoCall_follows`: which calls go right.
-/

namespace Pmon.Fs

open Pmon.Lib

/-! ## §1 The backend -/

/-- `ISO_DEFAULT_BLOCK_SIZE`. -/
def isoBlockSize : ℕ := 2048

/-- An open file: its extent and the size in its directory record, `offs`, and the disc. -/
structure IsoFile where
  bno : ℕ
  dataLength : ℕ
  offs : ℤ
  disc : Mem
  /-- How many bytes of the disc can be read. -/
  discSize : ℕ
  dataLength_lt : dataLength < 4294967296
  /-- The blocks of the file are on the disc. -/
  onDisc : (bno + (dataLength + 2047) / 2048) * 2048 ≤ discSize

/-- The field `size`, which `isonum_733` fills. -/
def IsoFile.size (f : IsoFile) : ℤ := wrap32 f.dataLength

/-- `devio_lseek` and `devio_read` of one block. -/
def IsoFile.readBlock (f : IsoFile) (bno : ℤ) : Option (List UInt8) :=
  if 0 ≤ bno ∧ (bno + 1) * isoBlockSize ≤ f.discSize then
    some (f.disc.slice (bno.toNat * isoBlockSize) isoBlockSize)
  else none

/-- How a read ends. -/
inductive IsoRead where
  | done (buf : List UInt8)
  /-- `EIO`. -/
  | fails
  /-- `bcopy` of a negative number of bytes. -/
  | astray

/-- `rc` in a turn that goes through the buffer: the sum is that of a `size_t`. -/
def isoRc (offs : ℤ) (size : ℕ) : ℤ :=
  min (isoBlockSize : ℤ) ((offs % isoBlockSize + size) % 4294967296) - offs % isoBlockSize

/-- The loop of `iso9660_read`: what it has copied, and `offs`. -/
def isoReadLoop (f : IsoFile) (size : ℕ) (offs : ℤ) (buf : List UInt8) : IsoRead × ℤ :=
  if size = 0 then (.done buf, offs)
  else if offs < 0 ∨ f.size ≤ offs then (.done buf, offs)
  else
    match f.readBlock (offs / isoBlockSize + f.bno) with
    | none => (.fails, offs)
    | some block =>
      if offs % isoBlockSize ≠ 0 ∨ size < isoBlockSize then
        if isoRc offs size ≤ 0 then (.astray, offs)
        else
          isoReadLoop f (size - (isoRc offs size).toNat) (wrap32 (offs + isoRc offs size))
            (buf ++ (block.drop (offs % isoBlockSize).toNat).take (isoRc offs size).toNat)
      else isoReadLoop f (size - isoBlockSize) (wrap32 (offs + isoBlockSize)) (buf ++ block)
termination_by size
decreasing_by
  · omega
  · simp only [isoBlockSize]
    omega

/-- `iso9660_read`. -/
def iso9660Read (n : ℕ) (f : IsoFile) : FileReply × IsoFile :=
  match isoReadLoop f n f.offs [] with
  | (.done buf, offs) => (.bytes (wrap32 buf.length) (some buf), { f with offs })
  | (.fails, offs) => (.bytes (-1) none, { f with offs })
  | (.astray, offs) => (.astray, { f with offs })

/-- `iso9660_lseek`. -/
def iso9660Lseek (offset : ℤ) (whence : ℕ) (f : IsoFile) : FileReply × IsoFile :=
  match whence with
  | 0 => (.posn (wrap32 offset), { f with offs := wrap32 offset })
  | 1 => (.posn (wrap32 (f.offs + offset)), { f with offs := wrap32 (f.offs + offset) })
  | 2 => (.posn (wrap32 (f.size - offset)), { f with offs := wrap32 (f.size - offset) })
  | _ => (.posn (-1), f)

def isoCall : FileCall → IsoFile → FileReply × IsoFile
  | .lseek offset whence, f => iso9660Lseek offset whence f
  | .read n, f => iso9660Read n f

/-! ## §2 What it refines -/

/-- What the file holds. -/
def IsoFile.file (f : IsoFile) : RandomFile :=
  ⟨f.dataLength, fun p => f.disc (f.bno * isoBlockSize + p)⟩

/-- A read from the position `p` that ends where it should: in the file, or at its end where that
    is the end of a block. -/
def IsoFile.Ends (f : IsoFile) (p n : ℕ) : Prop :=
  p + n ≤ f.dataLength ∨
    isoBlockSize ∣ f.dataLength ∧ p % isoBlockSize + n < 4294967296

/-- **When a call goes right**: the size and the positions are those of an `int`; nothing is added
    to the end of the file; and a read starts behind the file, or in it and ends as it should. -/
def IsoFile.Meets (f : IsoFile) : FileCall → Prop
  | .lseek offset whence =>
    (whence = 2 → offset = 0 ∧ f.dataLength < 2147483648) ∧
      ∀ p, f.file.target f.offs offset whence = some p → -2147483648 ≤ p ∧ p < 2147483648
  | .read n =>
    f.dataLength < 2147483648 ∧ 0 ≤ f.offs ∧ (f.offs < f.dataLength → f.Ends f.offs.toNat n)

variable {f : IsoFile} {n p size : ℕ} {buf : List UInt8}

/-- A piece of a block of the file. -/
theorem readBlock_piece (hp : p < f.dataLength) (hn : p % 2048 + n ≤ 2048) :
    ∃ block, f.readBlock ((p : ℤ) / isoBlockSize + f.bno) = some block ∧
      (block.drop (p % 2048)).take n = f.file.byte.slice p n := by
  have hdisc := f.onDisc
  have hblock : ((p : ℤ) / isoBlockSize + f.bno) = ((p / 2048 + f.bno : ℕ) : ℤ) := by
    simp only [isoBlockSize]
    omega
  refine ⟨f.disc.slice ((p / 2048 + f.bno) * isoBlockSize) isoBlockSize, ?_, ?_⟩
  · rw [hblock, IsoFile.readBlock, if_pos]
    · rw [Int.toNat_natCast]
    · simp only [isoBlockSize]
      omega
  · refine (Mem.drop_take_slice (by simp only [isoBlockSize]; exact hn)).trans ?_
    apply Mem.slice_shift
    intro k hk
    refine congrArg f.disc ?_
    simp only [isoBlockSize]
    omega

/-- What a turn reads: what is left of the block, or of the request. -/
def isoChunk (p size : ℕ) : ℕ := min (2048 - p % 2048) size

/-- **One turn** inside the file. -/
theorem isoTurn_eq (hsize : 0 < size) (hp : p < f.dataLength) (hlen : f.dataLength < 2147483648)
    (hfits : p % 2048 + size < 4294967296) (hoffs : p + isoChunk p size < 2147483648) :
    isoReadLoop f size p buf =
      isoReadLoop f (size - isoChunk p size) ((p + isoChunk p size : ℕ) : ℤ)
        (buf ++ f.file.byte.slice p (isoChunk p size)) := by
  have hmod : p % 2048 < 2048 := Nat.mod_lt _ (by decide)
  have hfsize : f.size = f.dataLength := wrap32_of_bounds (by omega) (by omega)
  obtain ⟨block, hread, hpiece⟩ := readBlock_piece (f := f) (n := isoChunk p size) hp
    (by rw [isoChunk]; omega)
  have ho : ((p : ℤ) % isoBlockSize).toNat = p % 2048 := by
    simp only [isoBlockSize]
    omega
  have hnext : wrap32 ((p : ℤ) + (isoChunk p size : ℕ)) = ((p + isoChunk p size : ℕ) : ℤ) := by
    rw [wrap32_of_bounds (by omega) (by omega)]
    rfl
  rw [isoReadLoop, if_neg (by omega), if_neg (by rw [hfsize]; omega), hread]
  dsimp only
  by_cases hbounce : (p : ℤ) % isoBlockSize ≠ 0 ∨ size < isoBlockSize
  · have hrc : isoRc p size = (isoChunk p size : ℕ) := by
      rw [isoRc, isoChunk]
      simp only [isoBlockSize]
      omega
    rw [if_pos hbounce, hrc, if_neg (by rw [isoChunk]; omega), Int.toNat_natCast, ho, hpiece, hnext]
  · -- The block is aligned and asked for as a whole.
    simp only [isoBlockSize] at hbounce
    have hchunk : isoChunk p size = isoBlockSize := by
      simp only [isoBlockSize]
      rw [isoChunk]
      omega
    have hzero : p % 2048 = 0 := by omega
    have hwhole : block = f.file.byte.slice p isoBlockSize := by
      have hblen : block.length = isoBlockSize := by
        rw [IsoFile.readBlock] at hread
        split at hread
        · cases hread
          exact Mem.length_slice
        · cases hread
      rw [hzero, List.drop_zero, hchunk, ← hblen, List.take_length, hblen] at hpiece
      exact hpiece
    rw [hchunk] at hnext
    rw [if_neg (by simp only [isoBlockSize]; exact hbounce), hchunk, hwhole, hnext]

theorem length_isoSlice (f : IsoFile) (p n : ℕ) : (f.file.byte.slice p n).length = n :=
  Mem.length_slice

/-- **The loop**: a read that ends as it should gives the bytes of the file. -/
theorem isoReadLoop_eq (hp : p ≤ f.dataLength) (hlen : f.dataLength < 2147483648)
    (hends : f.Ends p size) :
    isoReadLoop f size p buf =
      (.done (buf ++ f.file.byte.slice p (min size (f.dataLength - p))),
        ((p + min size (f.dataLength - p) : ℕ) : ℤ)) := by
  induction size using Nat.strongRecOn generalizing p buf with
  | ind size ih =>
    have hfsize : f.size = f.dataLength := wrap32_of_bounds (by omega) (by omega)
    have hmod : p % 2048 < 2048 := Nat.mod_lt _ (by decide)
    rcases Nat.eq_zero_or_pos size with rfl | hsize
    · rw [isoReadLoop, if_pos rfl, Nat.zero_min]
      simp [Mem.slice]
    rcases Nat.eq_or_lt_of_le hp with heq | hlt
    · rw [isoReadLoop, if_neg (by omega), if_pos (by rw [hfsize]; omega), heq, Nat.sub_self,
        Nat.min_zero]
      simp [Mem.slice]
    -- The turn stays in the file: it ends with the request, or the file ends with the block.
    have hin : p + isoChunk p size ≤ f.dataLength := by
      rw [isoChunk]
      rcases hends with hreq | ⟨⟨k, hk⟩, -⟩
      · omega
      · simp only [isoBlockSize] at hk
        omega
    have hfits : p % 2048 + size < 4294967296 := by
      rcases hends with hreq | ⟨-, hreq⟩
      · omega
      · exact hreq
    have hpos : 0 < isoChunk p size := by
      rw [isoChunk]
      omega
    have hle : isoChunk p size ≤ size := Nat.min_le_right _ _
    have hends' : f.Ends (p + isoChunk p size) (size - isoChunk p size) := by
      rcases hends with hreq | ⟨hdvd, hreq⟩
      · left
        omega
      · right
        refine ⟨hdvd, ?_⟩
        have hmod' : (p + isoChunk p size) % isoBlockSize < isoBlockSize :=
          Nat.mod_lt _ (by decide)
        simp only [isoChunk, isoBlockSize] at *
        omega
    have hsplit : min size (f.dataLength - p) = isoChunk p size +
        min (size - isoChunk p size) (f.dataLength - (p + isoChunk p size)) := by
      omega
    rw [isoTurn_eq hsize hlt hlen hfits (by omega), ih _ (by omega) hin hends', hsplit,
      Mem.slice_append, List.append_assoc, Nat.add_assoc]

/-- **Calls on a file of a disc.** -/
theorem isoCall_follows {l : FileCall} (h : f.Meets l) :
    CallFollows isoCall IsoFile.offs IsoFile.file f l := by
  cases l with
  | lseek offset whence =>
    obtain ⟨hend, hint⟩ := h
    cases htarget : f.file.target f.offs offset whence with
    | none =>
      refine CallFollows.of_eq (t := f) ?_ ?_ rfl
      · rw [RandomFile.answer_lseek_none _ htarget]
        match whence, htarget with
        | _ + 3, _ => rfl
      · rw [RandomFile.answer_lseek_none _ htarget]
    | some p =>
      obtain ⟨hlo, hhi⟩ := hint p htarget
      have hwrap : wrap32 p = p := wrap32_of_bounds hlo hhi
      refine CallFollows.of_eq (t := { f with offs := p }) ?_ ?_ rfl
      · rw [RandomFile.answer_lseek _ htarget]
        match whence, htarget with
        | 0, htarget =>
          cases htarget
          rw [isoCall, iso9660Lseek, hwrap]
        | 1, htarget =>
          cases htarget
          rw [isoCall, iso9660Lseek, hwrap]
        | 2, htarget =>
          cases htarget
          obtain ⟨rfl, hlen⟩ := hend rfl
          have hfsize : f.size = f.dataLength := wrap32_of_bounds (by omega) (by omega)
          rw [isoCall, iso9660Lseek, hfsize, Int.sub_zero]
          rw [Int.add_zero] at hwrap ⊢
          exact congrArg (fun p => (FileReply.posn p, { f with offs := p })) hwrap
      · rw [RandomFile.answer_lseek _ htarget]
  | read n =>
    obtain ⟨hlen, hp, hends⟩ := h
    obtain ⟨p, hoffs⟩ := Int.eq_ofNat_of_zero_le hp
    have hfsize : f.size = f.dataLength := wrap32_of_bounds (by omega) (by omega)
    rcases Int.lt_or_le f.offs f.dataLength with hlt | hge
    · have hin : p ≤ f.dataLength := by omega
      have hcount : f.file.count f.offs n = min n (f.dataLength - p) := by
        rw [hoffs]
        exact RandomFile.count_of_le _ (Int.natCast_nonneg p) (Int.ofNat_le.mpr hin)
      have hends' : f.Ends p n := by
        rw [hoffs] at hends
        exact hends (by omega)
      refine CallFollows.of_eq (t := { f with offs := f.offs + f.file.count f.offs n }) ?_ rfl rfl
      rw [RandomFile.answer, hcount, hoffs, isoCall, iso9660Read, hoffs,
        isoReadLoop_eq hin hlen hends', List.nil_append]
      dsimp only
      rw [length_isoSlice, wrap32_of_bounds (by omega) (by omega)]
      rfl
    · refine CallFollows.of_eq (t := f) ?_ ?_ rfl
      · rw [RandomFile.answer, RandomFile.count_of_ge _ hge, isoCall, iso9660Read, isoReadLoop]
        have hstop : f.offs < 0 ∨ f.size ≤ f.offs := Or.inr (by rw [hfsize]; exact hge)
        rw [if_pos hstop, ite_self]
        rfl
      · rw [RandomFile.answer, RandomFile.count_of_ge _ hge]
        exact (Int.add_zero _).symm

end Pmon.Fs
