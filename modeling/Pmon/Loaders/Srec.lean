import Pmon.Lib.Bytes
import Pmon.Libc.Strings
import Pmon.Loaders.LoadAddr

/-!
# The S-record loader

`load_srec` of `pmon/loaders/exec_srec.c` on a file that is not compressed, where the gzip layer
hands the bytes of the file on as they are.  The file is the list of its bytes; a read at its end
fails.

`newsym` stands for the symbol table that S4 records go to.
-/

namespace Pmon.Loaders

open Pmon.Lib Pmon.Libc

/-! ## §1 The loader's state -/

/-- `IFLAG`: ignore checksum errors. -/
def iflag : ℕ := 0x0020

/-- `VFLAG`: verbose. -/
def vflag : ℕ := 0x0040

/-- `AFLAG`: no offset for symbols. -/
def aflag : ℕ := 0x0008

/-- `NFLAG`: no symbols. -/
def nflag : ℕ := 0x0100

/-- `YFLAG`: only symbols. -/
def yflag : ℕ := 0x0200

/-- `flags & flag`. -/
def hasFlag (flags flag : ℕ) : Bool := flags &&& flag ≠ 0

/-- What a record leaves the loader with: `DL_CONT` and so on. -/
inductive DlStat where
  | cont
  | done
  | badchar
  | badlen
  | badtype
  | badsum
  | nosymspace
  | badaddr
  /-- The `-1` of a bad digit in the last byte of an address. -/
  | other
deriving DecidableEq

/-- Memory, `dl_minaddr` and `dl_maxaddr`, `dl_entry`, and the symbol table. -/
structure Dl (σ : Type) where
  mem : Mem
  lim : LoadLimits
  entry : BitVec 32
  syms : σ

variable {σ : Type}

/-- What `dl_initialise` makes of the limits. -/
def LoadLimits.initial : LoadLimits := ⟨0xffffffff#32, 0#32⟩

/-! ## §2 Data records -/

/-- The bytes of an address: `n` and the last one.  The address, the checksum, what follows. -/
def readAddr : ℕ → CStr → BitVec 32 → ℕ → Except DlStat (BitVec 32 × ℕ × CStr)
  | 0, p, addr, chksum =>
    match gethex p 2 with
    | none => .error .other
    | some v => .ok ((addr <<< 8) + BitVec.ofNat 32 v, chksum + v, p.drop 2)
  | n + 1, p, addr, chksum =>
    match gethex p 2 with
    | none => .error .badchar
    | some v => readAddr n (p.drop 2) ((addr <<< 8) + BitVec.ofNat 32 v) (chksum + v)

/-- The bytes of the address before the last one, by the type of the record. -/
def addrBytes (kind : UInt8) : Option ℕ :=
  if kind = 0x33 then some 3
  else if kind = 0x32 then some 2
  else if kind = 0x31 then some 1
  else none

/-- The loop that stores the data: memory, and the checksum with what follows. -/
def storeLoop : ℕ → CStr → BitVec 32 → ℕ → Mem → Mem × Option (ℕ × CStr)
  | 0, p, _, chksum, m => (m, some (chksum, p))
  | n + 1, p, addr, chksum, m =>
    match gethex p 2 with
    | none => (m, none)
    | some v =>
      storeLoop n (p.drop 2) (addr + 1) (chksum + v) (m.put addr.toNat (UInt8.ofNat v))

/-- `s3_datarec`: the status, `*plen` and the state. -/
def s3Datarec (layout : MemLayout) (flags : ℕ) (offset : BitVec 32) (p : CStr) (s : Dl σ) :
    DlStat × ℕ × Dl σ :=
  if hasFlag flags yflag then (.cont, 0, s)
  else
    match gethex (p.drop 2) 2 with
    | none => (.badchar, 0, s)
    | some len =>
      if len * 2 ≠ p.length - 4 then (.badlen, 0, s)
      else
        match addrBytes (p.getD 1 0) with
        | none => (.badtype, 0, s)
        | some n =>
          match readAddr n (p.drop 4) 0 len with
          | .error stat => (stat, 0, s)
          | .ok (addr, chksum, p) =>
            let addr := addr + offset
            let len : ℤ := len - (n + 2)
            match dlChecksetloadaddr layout s.lim addr (BitVec.ofInt 32 len)
              (hasFlag flags vflag) with
            | ((false, _), lim) => (.badaddr, 0, { s with lim })
            | ((true, _), lim) =>
              match storeLoop len.toNat p addr chksum s.mem with
              | (mem, none) => (.badchar, 0, { s with mem, lim })
              | (mem, some (chksum, p)) =>
                match gethex p 2 with
                | none => (.badchar, 0, { s with mem, lim })
                | some cs =>
                  if ! hasFlag flags iflag && cs ≠ 255 - chksum % 256 then
                    (.badsum, 0, { s with mem, lim })
                  else (.cont, len.toNat, { s with mem, lim })

/-! ## §3 The other records -/

/-- The loop of `s3_dlsym`. -/
def s3DlsymLoop (newsym : σ → CStr → BitVec 32 → Option σ) (offset : BitVec 32) :
    ℕ → ℤ → CStr → σ → DlStat × σ
  | 0, _, _, syms => (.badchar, syms)
  | fuel + 1, len, p, syms =>
    if len ≤ 2 then
      match gethex p 2 with
      | none => (.badchar, syms)
      | some _ => (.cont, syms)
    else
      match gethex p 8 with
      | none => (.badchar, syms)
      | some adr =>
        let p := p.drop 8
        let name := p.takeWhile (· ≠ 0x2c)
        if name.length = p.length then (.badchar, syms)
        else
          match newsym syms name (BitVec.ofNat 32 adr + offset) with
          | none => (.nosymspace, syms)
          | some syms =>
            s3DlsymLoop newsym offset fuel (len - 8 - name.length) (p.drop (name.length + 1)) syms

/-- `s3_dlsym`. -/
def s3Dlsym (newsym : σ → CStr → BitVec 32 → Option σ) (flags : ℕ) (offset : BitVec 32) (p : CStr)
    (s : Dl σ) : DlStat × Dl σ :=
  if hasFlag flags nflag then (.cont, s)
  else
    match gethex (p.drop 2) 2 with
    | none => (.badchar, s)
    | some len =>
      let (stat, syms) := s3DlsymLoop newsym (if hasFlag flags aflag then 0 else offset) p.length
        len (p.drop 4) s.syms
      (stat, { s with syms })

/-- `s3_endrec`. -/
def s3Endrec (offset : BitVec 32) (p : CStr) (s : Dl σ) : DlStat × Dl σ :=
  let n := ((0x39 - p.getD 1 0).toNat + 2) * 2
  match gethex (p.drop 4) n with
  | some adr => (.done, { s with entry := BitVec.ofNat 32 adr + offset })
  | none => (.done, { s with entry := 0xdeadbeef })

/-- `dl_s3load`: the status, `*plen` and the state. -/
def dlS3load (layout : MemLayout) (newsym : σ → CStr → BitVec 32 → Option σ) (flags : ℕ)
    (offset : BitVec 32) (recbuf : CStr) (s : Dl σ) : DlStat × ℕ × Dl σ :=
  let kind := recbuf.getD 1 0
  if recbuf.getD 0 0 ≠ 0x53 then (.badchar, 0, s)
  else if kind = 0x30 then (.cont, 0, s)
  else if 0x31 ≤ kind ∧ kind ≤ 0x33 then s3Datarec layout flags offset recbuf s
  else if kind = 0x34 then
    let (stat, s) := s3Dlsym newsym flags offset recbuf s
    (stat, 0, s)
  else if 0x37 ≤ kind ∧ kind ≤ 0x39 then
    let (stat, s) := s3Endrec offset recbuf s
    (stat, 0, s)
  else (.badtype, 0, s)

/-! ## §4 The file -/

/-- How `load_srec` fails. -/
inductive SrecError where
  /-- `-1`, not an S-record file. -/
  | notSrec
  /-- `-1`, the file ends within a line. -/
  | readError
  /-- `-2`, with the status that is printed. -/
  | loadError (stat : DlStat)
deriving DecidableEq

/-- The loop of `load_srec`: `line` is what was read of the current line, `count` the bytes loaded.
The result is the entry address with the number of bytes. -/
def loadSrecLoop (layout : MemLayout) (newsym : σ → CStr → BitVec 32 → Option σ) (flags : ℕ)
    (offset : BitVec 32) :
    List UInt8 → List UInt8 → ℕ → Dl σ → Except SrecError (BitVec 32 × ℕ) × Dl σ
  | [], _, _, s => (.error .readError, s)
  | c :: file, line, count, s =>
    if c = 0x0d then loadSrecLoop layout newsym flags offset file line count s
    else if c = 0xff ∨ c = 0x0a then
      match dlS3load layout newsym flags offset (line.takeWhile (· ≠ 0)) s with
      | (.cont, l, s) => loadSrecLoop layout newsym flags offset file [] (count + l) s
      | (.done, _, s) => (.ok (s.entry, count), s)
      | (stat, _, s) => (.error (.loadError stat), s)
    else loadSrecLoop layout newsym flags offset file (line ++ [c]) count s

/-- `load_srec`. -/
def loadSrec (layout : MemLayout) (newsym : σ → CStr → BitVec 32 → Option σ) (flags : ℕ)
    (offset : BitVec 32) (file : List UInt8) (s : Dl σ) :
    Except SrecError (BitVec 32 × ℕ) × Dl σ :=
  match file with
  | [] => (.error .notSrec, s)
  | c :: file =>
    if c ≠ 0x53 then (.error .notSrec, s)
    else loadSrecLoop layout newsym flags offset file [c] 0 s

end Pmon.Loaders
