import Pmon.Lib.Bytes
import Pmon.Lib.Words
import Pmon.Libc.Strings

/-!
# Raw devices

The descriptor operations of `pmon/fs/devfs.c` on a device that is already found.  The device's
own read and write are given by a `Disk`: what it holds, and what happens at each access to come.
`opendevs` and the bounce buffer `lbuff` are the rest of the state.

The file position is an `off_t`; it can overflow where a descriptor is opened or positioned, not
where it is advanced behind an access, since a device ends before that.
-/

namespace Pmon.Fs

open Pmon.Lib Pmon.Libc

/-! ## §1 State -/

/-- `DEV_BSIZE`. -/
def devBsize : ℕ := 512

/-- `MAXPHYS`. -/
def maxphys : ℕ := 32 * 1024

/-- What an `off_t` holds of an integer. -/
def wrap64 (x : ℤ) : ℤ := x.bmod 18446744073709551616

structure Disk where
  content : Mem
  /-- The accesses to come: nothing goes wrong, or the access fails and the disk then holds
      something. -/
  faults : ℕ → Option Mem

def Disk.next (disk : Disk) : ℕ → Option Mem := fun i => disk.faults (i + 1)

/-- An access at an offset; in front of the device there is nothing, and it ends before an
    `off_t` does. -/
def Disk.access (disk : Disk) (offs : ℤ) (n : ℕ) : Bool × Disk :=
  match disk.faults 0 with
  | some content => (false, ⟨content, disk.next⟩)
  | none => (decide (0 ≤ offs ∧ offs + n < 9223372036854775808), ⟨disk.content, disk.next⟩)

/-- `struct biodev`, the bounce buffer and the device. -/
structure Devio where
  offs : ℤ
  base : ℤ
  /-- `end`. -/
  stop : ℤ
  lbuff : Mem
  disk : Disk

inductive Errno where
  | ebadf
  | einval
  /-- What the device reports. -/
  | device
  deriving DecidableEq

/-! ## §2 Opening -/

/-- What `devio_open` leaves as `base` and `end` for the rest of a name behind the device, a start
    and a size in blocks; `strbuf` is long enough for it. -/
def window (getRsa : CStr → Option ℕ) : CStr → Except Errno Unit × ℤ × ℤ
  | [] => (.ok (), 0, 9223372036854775807)
  | c :: strbuf =>
    if c = 64 then
      let start := strbuf.takeWhile fun c => c ≠ 47 ∧ c ≠ 44 ∧ c ≠ 58
      let size :=
        match strbuf.drop start.length with
        | [] => some 9223372036854775807
        | c :: rest =>
          if c = 47 then some 9223372036854775807
          else (getRsa (rest.takeWhile (· ≠ 47))).map fun v => (v : ℤ) * devBsize
      match size with
      | none => (.error .ebadf, 0, 9223372036854775807)
      | some size =>
        match getRsa start with
        | none => (.error .ebadf, 0, size)
        | some v => (.ok (), v * devBsize, wrap64 (size + v * devBsize))
    else (.error .ebadf, 0, 9223372036854775807)

/-- `devio_open`, when the device itself opens. -/
def devioOpen (getRsa : CStr → Option ℕ) (name : CStr) (s : Devio) : Except Errno Unit × Devio :=
  let (opened, base, stop) := window getRsa name
  (opened, { s with offs := base, base, stop })

/-! ## §3 Reading and writing -/

/-- `read_device`. -/
def readDevice (n : ℕ) (s : Devio) : Option (List UInt8) × Devio :=
  let (ok, disk) := s.disk.access s.offs n
  if ok then (some (disk.content.slice s.offs.toNat n), { s with disk })
  else (none, { s with disk })

/-- `write_device`. -/
def writeDevice (bs : List UInt8) (s : Devio) : Bool × Devio :=
  let (ok, disk) := s.disk.access s.offs bs.length
  if ok then (true, { s with disk := { disk with content := disk.content.store s.offs.toNat bs } })
  else (false, { s with disk })

/-- Whether a turn of a loop goes through the bounce buffer. -/
def bounces (offs : ℤ) (leftlen : ℕ) : Bool := offs % devBsize ≠ 0 ∨ leftlen < devBsize

/-- The offset in its block. -/
def suboffs (offs : ℤ) : ℕ := (offs % devBsize).toNat

/-- The bytes that a turn of a loop transfers. -/
def chunk (offs : ℤ) (leftlen : ℕ) : ℕ :=
  if bounces offs leftlen then min (devBsize - suboffs offs) leftlen
  else if leftlen % devBsize ≠ 0 then min (leftlen - leftlen % devBsize) maxphys
  else min leftlen maxphys

theorem suboffs_lt (offs : ℤ) : suboffs offs < devBsize := by
  rw [suboffs, devBsize]
  omega

theorem chunk_pos (offs : ℤ) {leftlen : ℕ} (h : leftlen ≠ 0) : 0 < chunk offs leftlen := by
  have hsub := suboffs_lt offs
  rw [chunk]
  split
  · omega
  · rename_i hbig
    have hlong : ¬leftlen < devBsize := fun hlt => hbig (by simp [bounces, hlt])
    split <;> simp only [devBsize, maxphys] at hlong ⊢ <;> omega

theorem chunk_le (offs : ℤ) (leftlen : ℕ) : chunk offs leftlen ≤ leftlen := by
  rw [chunk]
  split
  · omega
  · split <;> omega

/-- One turn of the loop of `devio_read`. -/
def readTurn (leftlen : ℕ) (s : Devio) : Option (List UInt8) × Devio :=
  let n := chunk s.offs leftlen
  if bounces s.offs leftlen then
    let sub := suboffs s.offs
    match readDevice devBsize { s with offs := s.offs - sub } with
    | (none, s) => (none, s)
    | (some block, s) =>
      let lbuff := s.lbuff.store 0 block
      (some (lbuff.slice sub n), { s with lbuff, offs := s.offs + sub + n })
  else
    match readDevice n s with
    | (none, s) => (none, s)
    | (some bytes, s) => (some bytes, { s with offs := s.offs + n })

/-- The loop of `devio_read`: what is in `buf`, or that the device failed. -/
def readLoop (leftlen : ℕ) (s : Devio) (buf : List UInt8) : Except Errno (List UInt8) × Devio :=
  if leftlen = 0 then (.ok buf, s)
  else
    match readTurn leftlen s with
    | (none, s) => (.error .device, s)
    | (some bytes, s') => readLoop (leftlen - chunk s.offs leftlen) s' (buf ++ bytes)
termination_by leftlen
decreasing_by
  have hpos := chunk_pos s.offs ‹¬leftlen = 0›
  omega

/-- What `devio_read` makes of a length. -/
def clipLen (s : Devio) (blen : ℕ) : ℕ :=
  if (blen : ℤ) > s.stop - s.offs then (s.stop - s.offs).toNat else blen

/-- What `devio_read` and `devio_write` return: an `int`. -/
def retval : Except Errno (List UInt8) → ℤ
  | .ok bytes => wrap32 bytes.length
  | .error _ => -1

/-- `devio_read`, with the bytes it puts into `buf`. -/
def devioRead (s : Devio) (blen : ℕ) : Except Errno (List UInt8) × Devio :=
  if s.offs < s.base ∨ s.offs > s.stop then (.error .einval, s)
  else readLoop (clipLen s blen) s []

/-- One turn of the loop of `devio_write`. -/
def writeTurn (buf : List UInt8) (s : Devio) : Bool × Devio :=
  let n := chunk s.offs buf.length
  if bounces s.offs buf.length then
    let sub := suboffs s.offs
    let s := { s with offs := s.offs - sub }
    let (ok, s) :=
      if sub ≠ 0 ∨ n < devBsize then
        match readDevice devBsize s with
        | (none, s) => (false, s)
        | (some block, s) => (true, { s with lbuff := s.lbuff.store 0 block })
      else (true, s)
    if !ok then (false, s)
    else
      let s := { s with lbuff := s.lbuff.store sub (buf.take n) }
      match writeDevice (s.lbuff.slice 0 devBsize) s with
      | (false, s) => (false, s)
      | (true, s) => (true, { s with offs := s.offs + sub + n })
  else
    match writeDevice (buf.take n) s with
    | (false, s) => (false, s)
    | (true, s) => (true, { s with offs := s.offs + n })

/-- The loop of `devio_write`. -/
def writeLoop (buf : List UInt8) (s : Devio) : Except Errno Unit × Devio :=
  if buf = [] then (.ok (), s)
  else
    match writeTurn buf s with
    | (false, s) => (.error .device, s)
    | (true, s') => writeLoop (buf.drop (chunk s.offs buf.length)) s'
termination_by buf.length
decreasing_by
  have hlen : buf.length ≠ 0 := fun h => ‹¬buf = []› (List.eq_nil_of_length_eq_zero h)
  have hpos := chunk_pos s.offs hlen
  rw [List.length_drop]
  omega

/-- `devio_write`, with the bytes that went out. -/
def devioWrite (s : Devio) (buf : List UInt8) : Except Errno (List UInt8) × Devio :=
  match writeLoop buf s with
  | (.ok (), s) => (.ok buf, s)
  | (.error e, s) => (.error e, s)

/-! ## §4 Positioning -/

/-- `devio_lseek`, with the position it returns. -/
def devioLseek (s : Devio) (offs : ℤ) (whence : ℕ) : ℤ × Devio :=
  let offs := if whence = 0 then wrap64 (s.base + offs) else wrap64 (s.offs + offs)
  let offs := if offs > s.stop then s.stop else offs
  (wrap64 (offs - s.base), { s with offs })

/-! ## §5 Calls -/

inductive Call where
  | open (name : CStr)
  | read (blen : ℕ)
  | write (buf : List UInt8)
  | lseek (offs : ℤ) (whence : ℕ)

inductive Reply where
  | opened (r : Except Errno Unit)
  /-- The bytes that were read or written, and what the call returned. -/
  | moved (r : Except Errno (List UInt8)) (ret : ℤ)
  | at (offs : ℤ)

/-- A call on the descriptor. -/
def call (getRsa : CStr → Option ℕ) (s : Devio) : Call → Reply × Devio
  | .open name =>
    let (r, s) := devioOpen getRsa name s
    (.opened r, s)
  | .read blen =>
    let (r, s) := devioRead s blen
    (.moved r (retval r), s)
  | .write buf =>
    let (r, s) := devioWrite s buf
    (.moved r (retval r), s)
  | .lseek offs whence =>
    let (offs, s) := devioLseek s offs whence
    (.at offs, s)

def CallStep (getRsa : CStr → Option ℕ) (s : Devio) (l : Call × Reply) (s' : Devio) : Prop :=
  call getRsa s l.1 = (l.2, s')

end Pmon.Fs
