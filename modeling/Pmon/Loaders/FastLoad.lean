import Pmon.Loaders.Srec

/-!
# The fast format

`dl_fastload` of `pmon/loaders/loadfn.c`, and the loop of `load_xx` in `pmon/netio/netboot.c` that
hands it one block after the other.  A block consists of records of four characters; a record is
read by `fastRec` and carried out by `execRec`.

`nextaddr` and `dl_chksum` are file-scope variables: they live on from one block to the next.
-/

namespace Pmon.Loaders

open Pmon.Lib Pmon.Libc

/-! ## §1 Digits -/

/-- `LINESZ`. -/
def linesz : ℕ := 200

/-- `etob`: the value of a digit, or 64. -/
def etob (c : UInt8) : ℕ :=
  let c := c.toNat % 128
  if c = 44 then 62
  else if c = 46 then 63
  else if 48 ≤ c ∧ c ≤ 57 then c + 4
  else if 65 ≤ c ∧ c ≤ 90 then c - 65
  else if 97 ≤ c ∧ c ≤ 122 then c - 71
  else 64

/-- The loop of `getb64`: `v` is an `unsigned long`. -/
def getb64 : (n : ℕ) → CStr → (v : ℕ) → Option ℕ
  | 0, _, v => some v
  | n + 1, p, v =>
    if etob (p.headD 0) = 64 then none
    else getb64 n p.tail ((v * 64 + etob (p.headD 0)) % 4294967296)

/-! ## §2 Records -/

/-- The records, with their operands. -/
inductive FastRec where
  | klear
  | compare (v : ℕ)
  | zero (v : ℕ)
  | byte (v : ℕ)
  | addr (v : ℕ)
  | end_
  | symbol (name : CStr)
  | data (v : ℕ)
deriving DecidableEq

/-- The loop over the name of a symbol, from place `i` of a record on: the name, and what follows
    the record in which it ends.  There is none when the block ends first. -/
def nameLoop : (i : ℕ) → CStr → (name : CStr) → Option (CStr × CStr)
  | _, [], _ => none
  | i, c :: p, name =>
    if c = 0x2c then some (name, p.drop (3 - i))
    else nameLoop (if 4 ≤ i + 1 then 0 else i + 1) p (name ++ [c])

/-- The record at the front of a block, with what follows it; or the status of a bad one, or none
    where the name of a symbol does not fit `name`. -/
def fastRec (p : CStr) : Except (Option DlStat) (FastRec × CStr) :=
  if p.headD 0 = 0x2f then
    match p.getD 1 0 with
    | 0x4b => .ok (.klear, p.drop 4)
    | 0x43 =>
      match getb64 2 (p.drop 2) 0 with
      | none => .error (some .badchar)
      | some v => .ok (.compare v, p.drop 4)
    | 0x5a =>
      match getb64 2 (p.drop 2) 0 with
      | none => .error (some .badchar)
      | some v => .ok (.zero v, p.drop 4)
    | 0x42 =>
      match getb64 2 (p.drop 2) 0 with
      | none => .error (some .badchar)
      | some v => .ok (.byte v, p.drop 4)
    | 0x41 =>
      if p.length ≤ 4 then .error (some .badlen)
      else
        match getb64 6 (p.drop 2) 0 with
        | none => .error (some .badchar)
        | some v => .ok (.addr v, p.drop 8)
    | 0x45 => .ok (.end_, p.drop 4)
    | 0x53 =>
      match nameLoop 2 (p.drop 2) [] with
      | none => .error (if linesz < p.length - 2 then none else some .badlen)
      | some (name, rest) =>
        if linesz ≤ name.length then .error none else .ok (.symbol name, rest)
    | _ => .error (some .badtype)
  else
    match getb64 4 p 0 with
    | none => .error (some .badlen)
    | some v => .ok (.data v, p.drop 4)

/-- What `getb64` makes of `dl_chksum` for a record. -/
def FastRec.addSum : FastRec → ℕ → ℕ
  | .zero v, n => n + v % 4096
  | .byte v, n => n + v % 4096
  | .addr v, n => n + v / 16777216 % 4096 + v / 4096 % 4096 + v % 4096
  | .data v, n => n + v / 4096 % 4096 + v % 4096
  | _, n => n

/-! ## §3 A block -/

/-- The loader's state. -/
structure FastLoad (σ : Type) where
  dl : Dl σ
  nextaddr : BitVec 32
  chksum : ℕ

inductive FastStep (σ : Type) where
  /-- The loop goes on, with so many bytes more. -/
  | next (s : FastLoad σ) (len : ℕ)
  /-- A `break` out of the loop. -/
  | leave (s : FastLoad σ)
  | stop (stat : DlStat) (s : FastLoad σ)

variable {σ : Type} (newsym : σ → CStr → BitVec 32 → Option σ) (layout : MemLayout)
  (offset : BitVec 32) (flags : ℕ)

/-- `dl_checksetloadaddr` and `store_byte` of some bytes. -/
def FastLoad.load (s : FastLoad σ) (bytes : List UInt8) : FastStep σ :=
  match dlChecksetloadaddr layout s.dl.lim s.nextaddr (BitVec.ofNat 32 bytes.length)
    (hasFlag flags vflag) with
  | ((false, _), lim) => .stop .badaddr { s with dl := { s.dl with lim } }
  | ((true, _), lim) =>
    .next
      { s with
        dl := { s.dl with lim, mem := s.dl.mem.storeMod s.nextaddr.toNat bytes }
        nextaddr := s.nextaddr + BitVec.ofNat 32 bytes.length }
      bytes.length

def FastLoad.skip (s : FastLoad σ) (n : ℕ) : FastLoad σ :=
  { s with nextaddr := s.nextaddr + BitVec.ofNat 32 n }

/-- The three bytes of a 24-bit group. -/
def dataBytes (v : ℕ) : List UInt8 :=
  [UInt8.ofNat (v / 65536), UInt8.ofNat (v / 256), UInt8.ofNat v]

/-- What a record does. -/
def execRec (r : FastRec) (s : FastLoad σ) : FastStep σ :=
  let s := { s with chksum := r.addSum s.chksum }
  match r with
  | .klear => .next { s with chksum := 0 } 0
  | .compare v =>
    if ! hasFlag flags iflag && v ≠ s.chksum % 4096 then
      .stop .badsum { s with chksum := s.chksum % 4096 }
    else .next { s with chksum := 0 } 0
  | .zero v =>
    if hasFlag flags yflag then .next (s.skip (v * 3)) 0
    else s.load layout flags (List.replicate (v * 3) 0)
  | .byte v =>
    if hasFlag flags yflag then .next (s.skip 1) 0
    else s.load layout flags [UInt8.ofNat v]
  | .addr v => .next { s with nextaddr := BitVec.ofNat 32 v + offset } 0
  | .end_ => .next { s with dl := { s.dl with entry := s.nextaddr } } 0
  | .symbol name =>
    if hasFlag flags nflag then .next s 0
    else
      match newsym s.dl.syms name s.nextaddr with
      | none => .stop .nosymspace s
      | some syms => .next { s with dl := { s.dl with syms } } 0
  | .data v =>
    -- This `break` leaves the `for` loop.
    if hasFlag flags yflag then .leave (s.skip 3)
    else s.load layout flags (dataBytes v)

/-- The loop of `dl_fastload`: what it returns, `*plen` and the state; none where `name` is
    overrun. -/
def fastLoop : (fuel : ℕ) → CStr → DlStat → (len : ℕ) → FastLoad σ →
    Option (DlStat × ℕ × FastLoad σ)
  | 0, _, stat, len, s => some (stat, len, s)
  | fuel + 1, p, stat, len, s =>
    if p = [] then some (stat, len, s)
    else
      match fastRec p with
      | .error none => none
      | .error (some stat) => some (stat, 0, s)
      | .ok (r, rest) =>
        match execRec newsym layout offset flags r s with
        | .next s n => fastLoop fuel rest (if r = .end_ then .done else stat) (len + n) s
        | .leave s => some (stat, len, s)
        | .stop stat s => some (stat, 0, s)

/-- `dl_fastload`. -/
def dlFastload (recbuf : CStr) (s : FastLoad σ) : Option (DlStat × ℕ × FastLoad σ) :=
  if recbuf.length % 4 ≠ 0 then some (.badlen, 0, s)
  else fastLoop newsym layout offset flags recbuf.length recbuf .cont 0 s

/-! ## §4 A load -/

/-- The loop of `load_xx` over the blocks of a download. -/
def loadFast : List CStr → FastLoad σ → Option (DlStat × FastLoad σ)
  | [], s => some (.cont, s)
  | block :: blocks, s =>
    match dlFastload newsym layout offset flags block s with
    | none => none
    | some (.cont, _, s) => loadFast blocks s
    | some (stat, _, s) => some (stat, s)

end Pmon.Loaders
