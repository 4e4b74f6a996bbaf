import Mathlib.Data.Int.Notation
import Pmon.Lib.PackedStrings
import Pmon.Libc.Strings

/-!
# The NVRAM environment store

The LS2K board keeps the environment in one 512-byte flash sector
(`Targets/LS2K/ls2k/tgt_machdep.c`, built with `NVRAM_IN_FLASH`):

| bytes     | contents                                            |
|-----------|-----------------------------------------------------|
| 0, 1      | checksum of the environment area, big endian        |
| 2 .. 485  | packed `name=value` strings                         |
| 486, 487  | `activecom`, `em_enable`                            |
| 488 .. 499| the two Ethernet addresses                          |
| 500       | chip version                                        |
| 504 .. 507| CPU and DDR frequencies                             |

Every update copies the sector to a buffer, edits the buffer, and erases and programs the
sector.  Addresses below are offsets into the sector or the buffer.
-/

namespace Pmon.Nvram

open Pmon.Lib Pmon.Libc

/-! ## §1 Layout -/

def nvramSize : ℕ := 486
def nvramSecsize : ℕ := 512
def activecomOffs : ℕ := 486
def masterBridgeOffs : ℕ := 487
def etherOffs : ℕ := 488
def verOffs : ℕ := 500
def cpufreqOffs : ℕ := 504
def ddrfreqOffs : ℕ := 506

/-- `EXPERT`: the one variable that is never stored. -/
def expert : CStr := ascii "galileoexpert"

/-- The character `=`. -/
def eqSign : UInt8 := 61

/-- A bound for the scanning loops: the area ends long before. -/
def scanFuel : ℕ := nvramSecsize

/-! ## §2 State -/

/-- `hwethadr[12]`: the two Ethernet addresses. -/
structure EtherPair where
  bytes : List UInt8
  length_eq : bytes.length = 12

/-- Overwrite the first address, or the second. -/
def EtherPair.set (p : EtherPair) (second : Bool) (addr : List UInt8) (h : addr.length = 6) :
    EtherPair where
  bytes := if second then p.bytes.take 6 ++ addr else addr ++ p.bytes.drop 6
  length_eq := by
    have := p.length_eq
    split <;> simp [h, this]

/-- The sector and the globals of the NVRAM code. -/
structure NvState where
  /-- The flash sector that holds the environment. -/
  flash : Mem
  /-- `nvram_invalid`. -/
  invalid : ℕ
  activecom : UInt8
  emEnable : UInt8
  hwethadr : EtherPair
  ls2kver : UInt8

/-- How one update of the sector fares: the operation that fails, and what a failing flash
    operation leaves in the sector. -/
inductive Fault where
  | none
  | malloc
  | erase (left : Mem)
  | program (left : Mem)

/-- One update of the sector: its outcome, and what `malloc` left in the buffer. -/
structure FlashOp where
  fault : Fault
  junk : Mem

/-- The buffer after `malloc` and `memcpy(nvramsecbuf, nvram, NVRAM_SECSIZE)`. -/
def FlashOp.load (op : FlashOp) (flash : Mem) : Mem :=
  op.junk.copyFrom flash nvramSecsize

/-- `fl_erase_device` and `fl_program_device`: success, and the sector afterwards. -/
def FlashOp.program (op : FlashOp) (flash buf : Mem) : Bool × Mem :=
  match op.fault with
  | .erase left => (false, flash.copyFrom left nvramSecsize)
  | .program left => (false, flash.copyFrom left nvramSecsize)
  | _ => (true, flash.copyFrom buf nvramSecsize)

/-! ## §3 Checksum -/

/-- The summing loop of `cksum`: `sz` byte pairs, in 16 bits. -/
def cksumLoop (m : Mem) : ℕ → ℕ → ℕ → ℕ
  | _, 0, sum => sum
  | sp, sz + 1, sum =>
    let sum := (sum + (m sp).toNat * 256) % 65536
    let sum := (sum + (m (sp + 1)).toNat) % 65536
    cksumLoop m (sp + 2) sz sum

/-- `cksum(p, s, 0)`. -/
def cksum (m : Mem) (p s : ℕ) : ℕ := cksumLoop m p (s / 2) 0

/-- `cksum(p, s, 1)`: the memory with the checksum in place. -/
def cksumSet (m : Mem) (p s : ℕ) : Mem :=
  let m := (m.put p 0).put (p + 1) 0
  let sum := (65536 - cksum m p s) % 65536
  (m.put p (UInt8.ofNat (sum / 256))).put (p + 1) (UInt8.ofNat sum)

/-! ## §4 `tgt_mapenv` -/

/-- What the board reports besides the stored variables. -/
structure Board where
  /-- `fl_devident` finds the flash device. -/
  devident : Bool
  /-- The flash device from its base, where a rejected sector leaves the pointer. -/
  flashBase : Mem
  memorysize : ℕ
  memorysizeHigh : ℕ
  pipefreq : ℕ
  cpufreq : ℕ
  systype : CStr
  /-- `ls2k_version()`. -/
  version : UInt8

/-- One call of the reporting function: the name, and the value or a null pointer. -/
abbrev Report := CStr × Option CStr

/-- The copying loop over one entry: the next address, the counter `i`, and the name and the
    value so far.  It ends at the NUL, at the end of the area, or after 255 characters. -/
def mapEntryLoop (m : Mem) : ℕ → ℕ → ℕ → CStr → Option CStr → ℕ × ℕ × Report
  | 0, ep, i, name, val => (ep, i, (name, val))
  | fuel + 1, ep, i, name, val =>
    let c := m ep
    let ep := ep + 1
    if c ≠ 0 ∧ ep ≤ nvramSize - 1 then
      if i < 255 then
        match val with
        | none =>
          if c = eqSign then mapEntryLoop m fuel ep (i + 1) name (some [])
          else mapEntryLoop m fuel ep (i + 1) (name ++ [c]) none
        | some v => mapEntryLoop m fuel ep (i + 1) name (some (v ++ [c]))
      else (ep, i + 1, (name, val))
    else (ep, i, (name, val))

/-- The loop over the entries: the reports, and whether it came to the closing NUL. -/
def mapLoop (m : Mem) : ℕ → ℕ → List Report × Bool
  | 0, _ => ([], false)
  | fuel + 1, ep =>
    if m ep = 0 then ([], true)
    else
      let (ep, i, rep) := mapEntryLoop m 257 ep 0 [] none
      if ep ≤ nvramSize - 1 ∧ i < 255 then
        let (reps, ok) := mapLoop m fuel ep
        (rep :: reps, ok)
      else ([], false)

/-- The environment part of `tgt_mapenv`: what it reports and the new `nvram_invalid`. -/
def mapArea (dev : Board) (nv : NvState) : List Report × ℕ :=
  if !dev.devident || cksum nv.flash 0 nvramSize != 0 then ([], 1)
  else
    match mapLoop nv.flash (nvramSize + 1) 2 with
    | (reps, true) => (reps, nv.invalid)
    | (reps, false) => (reps, 2)

/-- `%02x` of a byte. -/
def hex2 (b : UInt8) : CStr :=
  [b / 16, b % 16].map fun d => if d < 10 then 48 + d else 87 + d

/-- `%d` of a natural number. -/
def dec (n : ℕ) : CStr := (Nat.toDigits 10 n).map fun c => UInt8.ofNat c.toNat

/-- `%02x:%02x:...` of an Ethernet address. -/
def etherStr (bs : List UInt8) : CStr := List.intercalate [58] (bs.map hex2)

/-- The calls of `func` after the stored variables: the fixed bytes of the sector, then what
    the board knows about itself. -/
def boardReports (dev : Board) (nv : NvState) : List Report :=
  [ (ascii "activecom", some (ascii "0x" ++ hex2 nv.activecom)),
    (ascii "em_enable", some (ascii "0x" ++ hex2 nv.emEnable)),
    (ascii "ethaddr", some (etherStr (nv.hwethadr.bytes.take 6))),
    (ascii "ethaddr1", some (etherStr (nv.hwethadr.bytes.drop 6))),
    (ascii "ls2kver", some (dec nv.ls2kver.toNat)),
    (ascii "memsize", some (dec (dev.memorysize / (1024 * 1024)))),
    (ascii "highmemsize", some (dec (dev.memorysizeHigh / (1024 * 1024)))),
    (ascii "cpuclock", some (dec dev.pipefreq)),
    (ascii "busclock", some (dec dev.cpufreq)),
    (ascii "systype", some dev.systype) ]

/-- The globals that `tgt_mapenv` reads out of the sector. -/
def readFixed (dev : Board) (nv : NvState) (m : Mem) (invalid : ℕ) : NvState :=
  let ver := m verOffs ^^^ 0x50
  { nv with
    invalid
    activecom := if invalid = 0 then m activecomOffs else 3
    emEnable := if invalid = 0 then m masterBridgeOffs else 3
    hwethadr := ⟨m.slice etherOffs 12, Mem.length_slice⟩
    ls2kver := if ver > 1 then dev.version else ver }

/-- `tgt_mapenv`: every call of `func` in order, and the state it leaves. -/
def tgtMapenv (dev : Board) (nv : NvState) : List Report × NvState :=
  let (reps, invalid) := mapArea dev nv
  -- on a bad device or checksum `nvram` still points at the base of the flash
  let m := if !dev.devident || cksum nv.flash 0 nvramSize != 0 then dev.flashBase else nv.flash
  let nv := readFixed dev nv m invalid
  (reps ++ boardReports dev nv, nv)

/-! ## §5 `tgt_unsetenv` -/

/-- The loop `while ((*ep == *np) && (*ep != '=') && (*np != '\0')) { ep++; np++; }`:
    where `ep` stops and what is left of the name. -/
def matchName (m : Mem) : ℕ → CStr → ℕ × CStr
  | ep, [] => (ep, [])
  | ep, c :: cs => if m ep = c ∧ m ep ≠ eqSign then matchName m (ep + 1) cs else (ep, c :: cs)

/-- The search loop: the start of the entry called `name` and the end of its name.

    When neither branch of the source applies, `ep` is on a NUL inside the area and the
    loop test ends the search. -/
def findEntry (m : Mem) (name : CStr) : ℕ → ℕ → Option (ℕ × ℕ)
  | 0, _ => none
  | fuel + 1, ep =>
    if m ep ≠ 0 ∧ ep ≤ nvramSize then
      let sp := ep
      let (ep, np) := matchName m ep name
      if np = [] ∧ (m ep = 0 ∨ m ep = eqSign) then some (sp, ep)
      else if m ep ≠ 0 then findEntry m name fuel (m.skipString scanFuel ep)
      else findEntry m name fuel ep
    else none

/-- Removing the entry at `sp`: copy down what follows it, up to and including byte
    `NVRAM_SIZE`. -/
def removeEntry (buf : Mem) (sp ep : ℕ) : Mem :=
  let ep := buf.skipString scanFuel ep
  let buf := buf.copyLoop ep sp (nvramSize + 1 - ep)
  let buf := if buf 2 = 0 then buf.put 3 0 else buf
  cksumSet buf 0 nvramSize

/-- `tgt_unsetenv`. -/
def tgtUnsetenv (nv : NvState) (op : FlashOp) (name : CStr) : ℤ × NvState :=
  if nv.invalid ≠ 0 then (0, nv)
  else
    match op.fault with
    | .malloc => (-1, nv)
    | _ =>
      let buf := op.load nv.flash
      match findEntry buf name (nvramSize + 1) 2 with
      | none => (0, nv)
      | some (sp, ep) =>
        let (ok, flash) := op.program nv.flash (removeEntry buf sp ep)
        (if ok then 1 else -1, { nv with flash })

/-! ## §6 `tgt_setenv` -/

/-- The sector updates of one `tgt_setenv`, and what an uninitialised `v` holds while an
    Ethernet address is parsed. -/
structure SetenvOps where
  reinit : FlashOp
  unset : FlashOp
  store : FlashOp
  uninit : UInt8

/-- Two bytes of a 16-bit number as `bcopy` stores them. -/
def le16 (n : ℕ) : List UInt8 := [UInt8.ofNat n, UInt8.ofNat (n / 256)]

/-- Six bytes of an Ethernet address, three characters each. -/
def parseEther (v : UInt8) (s : CStr) : ℕ → List UInt8
  | 0 => []
  | n + 1 =>
    let v := match gethex s 2 with
      | some x => UInt8.ofNat x
      | none => v
    v :: parseEther v (s.drop 3) n

@[simp] theorem length_parseEther (v : UInt8) (s : CStr) (n : ℕ) :
    (parseEther v s n).length = n := by
  induction n generalizing v s with
  | zero => rfl
  | succ n ih => simp [parseEther, ih]

/-- Resetting an invalid sector: `none` when an operation fails. -/
def reinit (nv : NvState) (op : FlashOp) : Bool × NvState :=
  match op.fault with
  | .malloc => (false, nv)
  | _ =>
    let buf := (op.load nv.flash).fill 0 nvramSize 0xff
    let buf := (buf.put 2 0).put 3 0
    let (ok, flash) := op.program nv.flash (cksumSet buf 0 nvramSize)
    (ok, { nv with flash, invalid := if ok then 0 else nv.invalid })

/-- The bytes `name=value` with its NUL, or `name` with its NUL. -/
def entryBytes (name : CStr) (value : Option CStr) : List UInt8 :=
  match value with
  | some v => name ++ eqSign :: v ++ [0]
  | none => name ++ [0]

/-- `envlen`: the lengths plus `=` plus NUL. -/
def envlen (name : CStr) (value : Option CStr) : ℕ :=
  name.length + (value.map List.length).getD 0 + 2

/-- The branch that stores a variable in the area: `none` where the source gives up for
    lack of space.  The test compares `ep + NVRAM_SIZE - ep` with the space needed. -/
def insertEntry (buf : Mem) (name : CStr) (value : Option CStr) : Option Mem :=
  let ep := if buf 2 ≠ 0 then buf.skipAll scanFuel 2 - 1 else 2
  if (ep + nvramSize - ep) < envlen name value + 1 then none
  else if name = ascii "heaptop" then
    some ((buf.move 2 (2 + envlen name value) (ep + 1)).store 2 (entryBytes name value))
  else
    some (buf.store ep (entryBytes name value ++ [0]))

/-- The choice between the variables that have a place of their own and all others:
    the buffer and the globals, or `none` for lack of space. -/
def editBuffer (nv : NvState) (uninit : UInt8) (buf : Mem) (name : CStr) (value : Option CStr) :
    Option (Mem × NvState) :=
  let v := value.getD []
  if name = ascii "activecom" then
    some (buf, { nv with activecom := UInt8.ofNat (strtoul v 0) })
  else if name = ascii "em_enable" then
    some (buf, { nv with emEnable := UInt8.ofNat (strtoul v 0) })
  else if name = ascii "cpufreq" then
    let f := strtoul v 0 % 65536
    some (buf.store cpufreqOffs (le16 (if f > 1000 ∨ f = 0 then 1000 else f)), nv)
  else if name = ascii "ddrfreq" then
    let f := strtoul v 0 % 65536
    some (buf.store ddrfreqOffs (le16 (if f > 600 ∨ f = 0 then 1024 else f)), nv)
  else if name = ascii "ls2kver" then
    some (buf, { nv with ls2kver := UInt8.ofNat (strtoul v 0) })
  else if name = ascii "ethaddr" then
    some (buf, { nv with hwethadr := nv.hwethadr.set false (parseEther uninit v 6) (length_parseEther ..) })
  else if name = ascii "ethaddr1" then
    some (buf, { nv with hwethadr := nv.hwethadr.set true (parseEther uninit v 6) (length_parseEther ..) })
  else
    (insertEntry buf name value).map (·, nv)

/-- The checksum and the fixed bytes behind the area. -/
def sealBuffer (nv : NvState) (buf : Mem) : Mem :=
  let buf := cksumSet buf 0 nvramSize
  let buf := (buf.put activecomOffs nv.activecom).put masterBridgeOffs nv.emEnable
  let buf := buf.store etherOffs nv.hwethadr.bytes
  buf.put verOffs (nv.ls2kver ||| 0x50)

/-- `tgt_setenv`. -/
def tgtSetenv (nv : NvState) (op : SetenvOps) (name : CStr) (value : Option CStr) : ℤ × NvState :=
  if name = expert then (1, nv)
  else if name = [] then (0, nv)
  else if envlen name value > 255 then (0, nv)
  else
    let (ok, nv) := if nv.invalid ≠ 0 then reinit nv op.reinit else (true, nv)
    if !ok then (-1, nv)
    else
      -- remove any current setting; its result is not looked at
      let (_, nv) := tgtUnsetenv nv op.unset name
      match op.store.fault with
      | .malloc => (-1, nv)
      | _ =>
        match editBuffer nv op.uninit (op.store.load nv.flash) name value with
        | none => (0, nv)
        | some (buf, nv) =>
          let (ok, flash) := op.store.program nv.flash (sealBuffer nv buf)
          (if ok then 1 else 0, { nv with flash })

end Pmon.Nvram
