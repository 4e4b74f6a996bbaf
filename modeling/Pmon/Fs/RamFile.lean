import Pmon.Fs.Devio
import Pmon.Lib.RandomFile

/-!
# Files in memory

`ramfile_read` and `ramfile_lseek` of `pmon/fs/ramfile.c` on a descriptor that is open.  The bytes
of a file are those of the memory from `base` on, behind pointers of 32 bits or, for
`RAMFILE_CPHY`, behind addresses of 64 bits.

## Key results

- `lseekTo_eq`: the `switch` of `lseek` goes where it should as long as an `off_t` can.
- `RamFile.copy_eq`: what is copied are the bytes of the file.
- `ramCall_follows`: calls that start inside the file.
-/

namespace Pmon.Fs

open Pmon.Lib

/-! ## §1 The switch of `lseek` -/

/-- The `switch` of `ramfile_lseek` and of `fat_lseek`: the position, or `EINVAL`. -/
def lseekTo (size : ℕ) (posn offset : ℤ) : (whence : ℕ) → Option ℤ
  | 0 => some offset
  | 1 => some (wrap64 (posn + offset))
  | 2 => some (wrap64 (size + offset))
  | _ => none

/-- A number of an `off_t`. -/
def IsOff (p : ℤ) : Prop := -9223372036854775808 ≤ p ∧ p < 9223372036854775808

theorem wrap64_of_isOff {p : ℤ} (h : IsOff p) : wrap64 p = p := by
  obtain ⟨hlo, hhi⟩ := h
  exact Int.bmod_eq_of_le (by omega) (by omega)

theorem lseekTo_eq {f : RandomFile} {p offset : ℤ} {whence : ℕ}
    (h : ∀ p', f.target p offset whence = some p' → IsOff p') :
    lseekTo f.size p offset whence = f.target p offset whence := by
  match whence with
  | 0 => rfl
  | 1 => exact congrArg some (wrap64_of_isOff (h _ rfl))
  | 2 => exact congrArg some (wrap64_of_isOff (h _ rfl))
  | _ + 3 => rfl

/-! ## §2 The backend -/

/-- An open file: its `Ramfile`, `posn`, and the memory. -/
structure RamFile where
  base : ℕ
  size : ℕ
  /-- `flags & RAMFILE_CPHY`. -/
  cphy : Bool
  posn : ℤ
  /-- What is behind the pointers. -/
  mem : Mem
  /-- What is behind the addresses of 64 bits. -/
  phys : Mem
  size_lt : size < 4294967296
  /-- A physical file lies in one of the windows of the address space. -/
  fits : cphy = true → base + size ≤ 576460752303423488

/-- Where a copy from the position `p` starts. -/
def RamFile.address (f : RamFile) (p : ℤ) : ℕ :=
  if f.cphy then 0x9800000000000000 ||| ((f.base + p) % 18446744073709551616).toNat
  else ((f.base + p) % 4294967296).toNat

/-- The byte at an address. -/
def RamFile.cell (f : RamFile) (a : ℕ) : UInt8 :=
  if f.cphy then f.phys (a % 18446744073709551616) else f.mem (a % 4294967296)

/-- `highmemcpy` or `memcpy` of `n` bytes from the position on. -/
def RamFile.copy (f : RamFile) (n : ℕ) : List UInt8 :=
  Mem.slice f.cell (f.address f.posn) n

/-- `ramfile_read`: what it returns as an `int`, and what it copies. -/
def ramfileRead (n : ℕ) (f : RamFile) : FileReply × RamFile :=
  let n := if f.posn + n > f.size then u32 (f.size - f.posn) else n
  (.bytes (wrap32 n) (some (f.copy n)), { f with posn := wrap64 (f.posn + n) })

/-- `ramfile_lseek`. -/
def ramfileLseek (offset : ℤ) (whence : ℕ) (f : RamFile) : FileReply × RamFile :=
  match lseekTo f.size f.posn offset whence with
  | some p => (.posn p, { f with posn := p })
  | none => (.posn (-1), f)

def ramCall : FileCall → RamFile → FileReply × RamFile
  | .lseek offset whence, f => ramfileLseek offset whence f
  | .read n, f => ramfileRead n f

/-! ## §3 What it refines -/

/-- What the file holds. -/
def RamFile.file (f : RamFile) : RandomFile := ⟨f.size, fun p => f.cell (f.address p)⟩

/-- **When a call goes right**: `lseek` stays inside an `off_t`; a read starts in the file, and
    there are fewer than 2^31 bytes to read. -/
def RamFile.Meets (f : RamFile) : FileCall → Prop
  | .lseek offset whence => ∀ p, f.file.target f.posn offset whence = some p → IsOff p
  | .read n => 0 ≤ f.posn ∧ f.posn ≤ f.size ∧ f.file.count f.posn n < 2147483648

variable {f : RamFile} {n : ℕ}

/-- The window of 64-bit addresses and a place in it do not share bits. -/
theorem RamFile.address_add {p i : ℕ} (h : p + i < f.size) :
    f.cell (f.address p + i) = f.cell (f.address (p + i : ℕ)) := by
  unfold RamFile.cell RamFile.address
  split
  · rename_i hcphy
    have hfits := f.fits hcphy
    have hwindow : ∀ q < 576460752303423488,
        0x9800000000000000 ||| q = 0x9800000000000000 + q := fun q hq =>
      (Nat.two_pow_add_eq_or_of_lt (i := 59) hq 19).symm
    have hat : ∀ q, f.base + q < 576460752303423488 →
        (((f.base : ℤ) + q) % 18446744073709551616).toNat = f.base + q := by
      intro q hq
      omega
    rw [hat p (by omega), hat (p + i) (by omega), hwindow _ (by omega), hwindow _ (by omega)]
    congr 1
    omega
  · congr 1
    omega

/-- **What is copied** from inside a file is the file. -/
theorem RamFile.copy_eq (hp : 0 ≤ f.posn) (hn : f.posn + n ≤ f.size) :
    f.copy n = f.file.byte.slice f.posn.toNat n := by
  have hposn : f.posn = (f.posn.toNat : ℤ) := (Int.toNat_of_nonneg hp).symm
  apply Mem.slice_shift
  intro k hk
  rw [hposn]
  exact RamFile.address_add (by omega)

/-- **Calls on a file in memory.** -/
theorem ramCall_follows {l : FileCall} (h : f.Meets l) :
    CallFollows ramCall RamFile.posn RamFile.file f l := by
  cases l with
  | lseek offset whence =>
    have hto : lseekTo f.size f.posn offset whence = f.file.target f.posn offset whence :=
      lseekTo_eq (f := f.file) h
    cases htarget : f.file.target f.posn offset whence with
    | none =>
      rw [htarget] at hto
      refine CallFollows.of_eq (t := f) ?_ ?_ rfl
      · rw [RandomFile.answer_lseek_none _ htarget, ramCall, ramfileLseek, hto]
      · rw [RandomFile.answer_lseek_none _ htarget]
    | some p =>
      rw [htarget] at hto
      refine CallFollows.of_eq (t := { f with posn := p }) ?_ ?_ rfl
      · rw [RandomFile.answer_lseek _ htarget, ramCall, ramfileLseek, hto]
      · rw [RandomFile.answer_lseek _ htarget]
  | read n =>
    obtain ⟨hp, hsize, hcount⟩ := h
    have hlt := f.size_lt
    have hlen : (f.file.count f.posn n : ℤ) = min (n : ℤ) (f.size - f.posn) := by
      rw [RandomFile.count_of_le _ hp hsize]
      change ((min n (f.size - f.posn.toNat) : ℕ) : ℤ) = _
      omega
    have hclip : (if f.posn + n > f.size then u32 (f.size - f.posn) else n) =
        f.file.count f.posn n := by
      split
      · exact u32_of_bounds (by omega) (by omega)
      · omega
    refine CallFollows.of_eq (t := { f with posn := f.posn + f.file.count f.posn n }) ?_ rfl rfl
    rw [ramCall, ramfileRead, hclip, RamFile.copy_eq hp (by omega),
      wrap64_of_isOff ⟨by omega, by omega⟩, wrap32_of_bounds (by omega) (by omega)]
    rfl

end Pmon.Fs
