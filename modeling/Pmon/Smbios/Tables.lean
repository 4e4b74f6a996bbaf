import Pmon.Lib.PackedStrings
import Pmon.Libc.Numbers
import Pmon.Netio.HttpHeader
import Pmon.Smbios.Uuid

/-!
# Writing the SMBIOS tables

`write_smbios_tables` of `pmon/common/smbios/smbios.c` and the routines that it calls, for the
LS2K.  The memory slots are a parameter, though the LS2K has none, so that the structures of
memory modules are there too.

What the routines take from elsewhere is in `SmbiosInput`; with it comes what some of their local
variables hold before, since they are read where nothing has been stored in them.
-/

namespace Pmon.Smbios

open Pmon.Lib Pmon.Libc Pmon.Loaders Pmon.Netio

/-! ## §1 What the tables are made from -/

/-- The boards, by their names. -/
inductive Ls2kBoard where
  | pi2
  | edu
  | demo

/-- `LS2K_BOARD_NAME`. -/
def Ls2kBoard.name : Ls2kBoard → CStr
  | pi2 => ascii "Loongson-2K-SOC-1w-V1-PI2"
  | edu => ascii "Loongson-2K-SOC-1w-V1.1-EDU_UDB"
  | demo => ascii "Loongson-2K-SOC-1w-V0.6-demo"

/-- The memory slots: the LS2K and the 2G5536 have none, the other targets four or eight. -/
inductive DimmSlots where
  | none
  | four
  | eight

def DimmSlots.dimmnum : DimmSlots → ℕ
  | none => 0
  | four => 4
  | eight => 8

/-- `prase_name`: what stands between the `V` and the next dash. -/
def praseName (name : CStr) : CStr := ((name.dropWhile (· ≠ 86)).drop 1).takeWhile (· ≠ 45)

structure SmbiosInput where
  board : Ls2kBoard
  /-- `vers` from its first colon on. -/
  date : ℕ → UInt8
  flashsize : BitVec 32
  /-- The variables `uuid` and `cpuclock`. -/
  uuid : Option CStr
  cpuclock : Option CStr
  /-- What `uuid_generate` makes up. -/
  generated : Fin 16 → UInt8
  prid : BitVec 32
  /-- `cpu_probe_release`. -/
  probeRelease : Bool
  /-- The SPD bytes of each slot. -/
  spd : ℕ → ℕ → UInt8
  /-- What the locals hold before: `update`, the string in `cpu_version`, `density`, and what is
      behind `t`. -/
  update : ℕ → UInt8
  cpuVersion : CStr
  density : UInt8
  stack : ℕ → UInt8
  cpuVersion_string : (0 : UInt8) ∉ cpuVersion

/-! ## §2 Writing a structure -/

def word16 (n : ℕ) : List UInt8 := [UInt8.ofNat n, UInt8.ofNat (n / 256)]

/-- `p->header`. -/
def header (type length handle : ℕ) : List UInt8 :=
  [UInt8.ofNat type, UInt8.ofNat length] ++ word16 handle

/-- The memory, and how far it is written. -/
abbrev Cursor := Mem × ℕ

/-- `strcpy((char *)start, s)` and the step behind it. -/
def putString (x : Cursor) (s : CStr) : Cursor := (x.1.store x.2 (s ++ [0]), x.2 + s.length + 1)

/-- The strings of a structure and the NUL behind them. -/
def putStrings (strs : List CStr) (x : Cursor) : Cursor :=
  let x := strs.foldl putString x
  (x.1.put x.2 0, x.2 + 1)

/-- The end of a structure that has no strings. -/
def putNoStrings (x : Cursor) : Cursor := ((x.1.put x.2 0).put (x.2 + 1) 0, x.2 + 2)

/-- The fields of a structure. -/
def putBody (body : List UInt8) (m : Mem) (start : ℕ) : Cursor :=
  (m.store start body, start + body.length)

/-- `strncpy(dst, src, n)`: what it stores. -/
def strncpyBytes : ℕ → (ℕ → UInt8) → List UInt8
  | 0, _ => []
  | n + 1, src =>
    if src 0 = 0 then List.replicate (n + 1) 0 else src 0 :: strncpyBytes n fun k => src (k + 1)

/-- What a routine that takes a string finds in an array. -/
def stringOf (buf : List UInt8) : CStr := buf.takeWhile (· ≠ 0)

/-! ## §3 The BIOS -/

/-- `tran_month`. -/
def tranMonth (c : ℕ → UInt8) : Option CStr :=
  match c 0 with
  | 74 => some (if c 1 = 97 then ascii "01" else if c 2 = 110 then ascii "06" else ascii "07")
  | 70 => some (ascii "02")
  | 77 => some (if c 2 = 114 then ascii "03" else ascii "05")
  | 65 => some (if c 1 = 112 then ascii "04" else ascii "08")
  | 83 => some (ascii "09")
  | 79 => some (ascii "10")
  | 78 => some (ascii "11")
  | 68 => some (ascii "12")
  | _ => none

/-- `get_update`, into an array that holds `p` before; `strncpy` from `NULL` stores nothing. -/
def getUpdate (date p : ℕ → UInt8) : List UInt8 :=
  strncpyBytes 4 (fun k => date (26 + k)) ++ [45] ++
    ((tranMonth fun k => date (6 + k)).getD [p 5, p 6]) ++ [45] ++
    strncpyBytes 2 (fun k => date (10 + k)) ++ [0]

/-- `temp`: the date without its dashes, and zeros for its blanks. -/
def dateDigits (update : List UInt8) : List UInt8 :=
  (strncpyBytes 4 (fun k => update.getD k 0) ++ strncpyBytes 2 (fun k => update.getD (5 + k) 0) ++
    strncpyBytes 2 (fun k => update.getD (8 + k) 0)).map fun c => if c = 32 then 48 else c

def pmonVersion (update : List UInt8) : CStr :=
  ascii "Loongson-PMON-V3.3-" ++ stringOf (dateDigits update)

/-- `release_date_string`: month, day and year. -/
def releaseDate (update : List UInt8) : CStr :=
  stringOf ((strncpyBytes 5 fun k => update.getD (5 + k) 0).set 2 47 ++ [47] ++
    strncpyBytes 4 (fun k => update.getD k 0))

/-- `smbios_type_0_init`. -/
def smbiosType0Init (inp : SmbiosInput) (handle : ℕ) (m : Mem) (start : ℕ) : Cursor :=
  let update := getUpdate inp.date inp.update
  putStrings [ascii "Loongson", pmonVersion update, releaseDate update]
    (putBody (header 0 24 handle ++ [1, 2] ++ word16 0xe000 ++
      [3, UInt8.ofNat (((inp.flashsize.sshiftRight 16) - 1#32).toNat)] ++
      [0, 0x18, 5, 0, 0, 0, 0, 0] ++ [0x80, 2] ++ [3, 0, 0xff, 0xff]) m start)

/-! ## §4 The system and the board -/

/-- `smbios_type_1_init`; the text of a UUID that it makes up is stored in the variable `uuid`. -/
def smbiosType1Init (inp : SmbiosInput) (handle : ℕ) (m : Mem) (start : ℕ) : Cursor :=
  let x := putBody (header 1 27 handle ++ [1, 2, 3, 0] ++ List.replicate 16 0 ++ [6, 0, 4]) m start
  let m := match inp.uuid with
    | none => x.1.store (start + 8) (List.ofFn inp.generated)
    | some q => parseUuid inp.stack (start + 8) x.1 q
  putStrings [ascii "Loongson", inp.board.name, praseName inp.board.name, ascii "Loongson2K"]
    (m, x.2)

/-- `smbios_type_2_init`. -/
def smbiosType2Init (inp : SmbiosInput) (handle : ℕ) (m : Mem) (start : ℕ) : Cursor :=
  putStrings [ascii "Loongson", inp.board.name, praseName inp.board.name]
    (putBody (header 2 17 handle ++ [1, 2, 3, 0, 0, 9, 0] ++ word16 0 ++ [0x0a, 0] ++ word16 0)
      m start)

/-! ## §5 The processor -/

/-- What `cpu_version` holds in the end, and `max_speed`. -/
def cpuVersionOf (inp : SmbiosInput) : CStr × ℕ :=
  if inp.prid = 0x6304#32 then (ascii "Loongson ICT Loongson-2F CPU @ 800MHz", 800)
  else if inp.prid = 0x6305#32 then
    (if inp.probeRelease then ascii "Loongson ICT Loongson-3A5 CPU @ 1.0GHz"
      else ascii "Loongson ICT Loongson-3A CPU @ 1.0GHz", 1000)
  else if inp.prid = 0x6306#32 then (ascii "Loongson ICT Loongson-3B CPU @ 1.0GHz", 1000)
  else if inp.prid = 0x6307#32 then (ascii "Loongson ICT Loongson-3B CPU @ 1.5GHz", 1500)
  else if inp.prid = 0x6302#32 then (ascii "Loongson ICT Loongson-2K CPU @ 1.0GHz", 1000)
  else (inp.cpuVersion, 0)

/-- `p->cpuid`; the type has two bits. -/
def cpuidBytes (prid : BitVec 32) : List UInt8 :=
  let nibble := fun n : ℕ => (prid >>> n).toNat % 16
  [UInt8.ofNat (nibble 8 + 16 * nibble 12), UInt8.ofNat (nibble 0 + 16 * (nibble 4 % 4)), 0, 0,
    0, 0, 0, 0]

/-- `smbios_type_4_init`; `atoi` of a variable that is not set reads from address 0. -/
def smbiosType4Init (inp : SmbiosInput) (handle : ℕ) (m : Mem) (start : ℕ) : Option Cursor :=
  inp.cpuclock.map fun cpuclock =>
    let speed := ((atoi cpuclock).toInt.tdiv 1000000 % 65536).toNat
    putStrings [ascii "Loongson", (cpuVersionOf inp).1]
      (putBody (header 4 42 handle ++ [0, 3, 1, 1] ++ cpuidBytes inp.prid ++ [2, 2] ++ word16 25 ++
        word16 (cpuVersionOf inp).2 ++ word16 speed ++ [2, 1] ++ word16 0xffff ++ word16 0xffff ++
        word16 0xffff ++ [0, 0, 0] ++ [2, 2, 0] ++ word16 2 ++ word16 1) m start)

/-! ## §6 The memory -/

/-- `smbios_type_16_init`. -/
def smbiosType16Init (dimmnum maximumCapacity handle : ℕ) (m : Mem) (start : ℕ) : Cursor :=
  putNoStrings (putBody (header 16 15 handle ++ [3, 3, 2] ++ word16 maximumCapacity ++
    word16 (maximumCapacity / 65536) ++ word16 0xfffe ++ word16 dimmnum) m start)

/-- The types of memory that the routines know: `0x8` is DDR2 and `0xb` is DDR3. -/
def knownDdr (ddrtype : UInt8) : Bool := ddrtype = 8 ∨ ddrtype = 11

/-- `get_ddr_size`; for DDR2 the density is not read. -/
def getDdrSize (spd : ℕ → UInt8) (density ddrtype : UInt8) : ℕ :=
  if ddrtype = 8 then
    let rank := (spd 5 &&& 15) + 1
    let value := if density = 0x20 then 128 else if density = 0x40 then 256
      else if density = 0x80 then 512 else if density = 1 then 1024
      else if density = 2 then 2048 else if density = 4 then 4096 else 0
    rank.toNat * value
  else if ddrtype = 11 then
    let capacity := spd 4 &&& 15
    let value := if capacity = 1 then 512 else if capacity = 2 then 1024
      else if capacity = 3 then 2048 else if capacity = 4 then 4096
      else if capacity = 5 then 8192 else if capacity = 6 then 16384 else 256
    let width := (spd 7 &&& 7).toNat
    let rank := ((spd 7 &&& 0x38) >>> 3).toNat + 1
    let bWidth := (spd 8 &&& 7).toNat
    let width := if width < 4 then 4 <<< width else width
    let bWidth := if bWidth < 4 then 8 <<< bWidth else bWidth
    value / 8 * bWidth / width * rank
  else 0

/-- `get_ddr_speed`. -/
def getDdrSpeed (spd : ℕ → UInt8) (ddrtype : UInt8) : ℕ :=
  if ddrtype = 8 then
    if spd 9 = 0x50 then 400 else if spd 9 = 0x3d then 533 else if spd 9 = 0x30 then 667
    else if spd 9 = 0x25 then 800 else 0
  else if ddrtype = 11 then
    if spd 12 = 0x14 then 800 else if spd 12 = 0x0f then 1066 else if spd 12 = 0x0c then 1333
    else if spd 12 = 0x0a then 1600 else 0
  else 0

/-- `get_ddr_manustr`; a byte of `0x7f` says that the next one counts, up to the fifth. -/
def getDdrManustr (spd : ℕ → UInt8) (ddrtype : UInt8) : CStr :=
  let manu := if ddrtype = 8 then
      (([0x40, 0x41, 0x42, 0x43].map spd).find? (· ≠ 0x7f)).getD (spd 0x44)
    else spd 0x76
  if manu = 0xad then ascii "Hynix" else if manu = 0xce then ascii "SamSung"
  else if manu = 0x0b then ascii "Micron" else if manu = 0x98 then ascii "Kingston"
  else if manu = 0x25 then ascii "Kingmax" else if manu = 0x4f then ascii "Transcend"
  else if manu = 0xcb then ascii "A-DATA Technology" else ascii "Unknow"

/-- `get_ddr_snstr`: four bytes in hexadecimal. -/
def getDdrSnstr (spd : ℕ → UInt8) (ddrtype : UInt8) : CStr :=
  let offset := if ddrtype = 8 then 95 else 122
  (List.range 4).flatMap fun i =>
    [digitX ((spd (i + offset)).toNat / 16), digitX ((spd (i + offset)).toNat % 16)]

/-- `get_ddr_pnstr`. -/
def getDdrPnstr (spd : ℕ → UInt8) (ddrtype : UInt8) : CStr :=
  let offset := if ddrtype = 8 then 73 else 128
  let pnstr := (List.range 18).map fun i => spd (i + offset)
  if pnstr.headD 0 = 0 then ascii "unknown" else stringOf pnstr

/-- `dimmstr`. -/
def dimmString (slotnum : ℕ) : CStr :=
  if slotnum < 8 then ascii "DIMM " ++ numeral 10 slotnum else []

/-- `smbios_type_17_init`; `arrayHandle` is `memory_array_handle`. -/
def smbiosType17Init (inp : SmbiosInput) (arrayHandle slotnum handle : ℕ) (m : Mem) (start : ℕ) :
    Cursor :=
  let spd := inp.spd slotnum
  let ddrtype := spd 2
  let dataWidth := if ddrtype = 11 then (1 <<< (spd 8 &&& 7).toNat) * 8 else 64
  let totalWidth := if ddrtype = 11 then ((spd 8 &&& 0x18) >>> 3).toNat * 8 + dataWidth else 64
  let memoryType := if ddrtype = 8 then 0x13 else if ddrtype = 11 then 0x18 else 0
  let refs := if knownDdr ddrtype then [3, 4, 0, 5] else [0, 0, 0, 0]
  putStrings ([dimmString slotnum, ascii "BANK 0"] ++ if knownDdr ddrtype then
      [getDdrManustr spd ddrtype, getDdrSnstr spd ddrtype, getDdrPnstr spd ddrtype] else [])
    (putBody (header 17 28 handle ++ word16 arrayHandle ++ word16 0xfffe ++ word16 totalWidth ++
      word16 dataWidth ++ word16 (getDdrSize spd inp.density ddrtype) ++ [9, 0, 1, 2, memoryType] ++
      word16 0 ++ word16 (getDdrSpeed spd ddrtype) ++ refs ++ [0]) m start)

/-! ## §7 The table -/

/-- `smbios_type_28_init`; on the LS2K nothing is stored as `nominal_value`. -/
def smbiosType28Init (handle : ℕ) (m : Mem) (start : ℕ) : Cursor :=
  putStrings [ascii "CPU Temperature"]
    (putBody (header 28 22 handle ++ [1, 0x63] ++ word16 1280 ++ word16 0x8000 ++ word16 0x8000 ++
      word16 0x8000 ++ word16 0x8000 ++ [0, 0, 0, 0] ++ word16 0) m start)

/-- `smbios_type_127_init`. -/
def smbiosType127Init (handle : ℕ) (m : Mem) (start : ℕ) : Cursor :=
  putNoStrings (putBody (header 127 4 handle) m start)

/-- The locals of `write_smbios_tables`.  `smbios_table_handle` begins at 0 like `nr_structs`. -/
structure TableWriter where
  m : Mem
  p : ℕ
  nrStructs : ℕ
  maxStructSize : ℕ

/-- `do_struct`, with the place where the structure ended. -/
def TableWriter.doStruct (w : TableWriter) (q : Cursor) : TableWriter where
  m := q.1
  p := q.2
  nrStructs := w.nrStructs + 1
  maxStructSize := if q.2 - w.p > w.maxStructSize then q.2 - w.p else w.maxStructSize

/-- The structures, one after another; `none` is where `atoi` gets a null pointer. -/
def writeStructs (inp : SmbiosInput) (dimmnum maximumCapacity : ℕ) (m : Mem) (p : ℕ) :
    Option TableWriter :=
  let w : TableWriter := ⟨m, p, 0, 0⟩
  let w := w.doStruct (smbiosType0Init inp w.nrStructs w.m w.p)
  let w := w.doStruct (smbiosType1Init inp w.nrStructs w.m w.p)
  let w := w.doStruct (smbiosType2Init inp w.nrStructs w.m w.p)
  (smbiosType4Init inp w.nrStructs w.m w.p).map fun q =>
    let w := w.doStruct q
    let arrayHandle := w.nrStructs
    let w := w.doStruct (smbiosType16Init dimmnum maximumCapacity w.nrStructs w.m w.p)
    let w := (List.range dimmnum).foldl (fun w i =>
      w.doStruct (smbiosType17Init inp arrayHandle i w.nrStructs w.m w.p)) w
    let w := w.doStruct (smbiosType28Init w.nrStructs w.m w.p)
    w.doStruct (smbiosType127Init w.nrStructs w.m w.p)

/-- `sum` over some bytes. -/
def byteSum (bs : List UInt8) : UInt8 := bs.foldl (· + ·) 0

/-- `smbios_entry_point_init`. -/
def smbiosEntryPointInit (m : Mem) (start maxSize tableLength tableAddress number : ℕ) : Mem :=
  let m := m.store start (ascii "_SM_" ++ [0, 0x1f, 2, 6] ++ word16 maxSize ++ [0] ++
    [0, 0, 0, 0, 0] ++ ascii "_DMI_" ++ [0] ++ word16 tableLength ++ word16 tableAddress ++
    word16 (tableAddress / 65536) ++ word16 number ++ [0])
  let m := m.put (start + 4) (-byteSum (m.slice start 16))
  m.put (start + 21) (-byteSum (m.slice (start + 16) 15))

/-- `write_smbios_tables`. -/
def writeSmbiosTables (inp : SmbiosInput) (slots : DimmSlots) (maximumCapacity : ℕ) (m : Mem)
    (start : ℕ) : Option Mem :=
  (writeStructs inp slots.dimmnum maximumCapacity m (start + 31)).map fun w =>
    smbiosEntryPointInit w.m start w.maxStructSize (w.p - start - 31)
      (start % 2 ^ 31 + 31) w.nrStructs

end Pmon.Smbios
