import Mathlib.Algebra.Group.Defs
import Pmon.Dtb.Fdt

/-!
# The check of the stored device tree

`verify_dtb` and its `check_…` and `update_…` functions in `Targets/LS2K/dev/load_dtb.c`.  The tree
lies between two words that hold a checksum.  If one of the checks fails, a copy of the tree is
updated and the whole area is programmed anew.
-/

namespace Pmon.Dtb

/-! ## §1 The board -/

/-- What the tree is checked against. -/
structure Board where
  hwethadr : ℕ → BitVec 8
  ls2kVersion : Bool
  pciProbeOnly : ℕ
  /-- A register in the configuration space of a device on bus 0. -/
  conf : ℕ → ℕ → BitVec 32
  memorysizeTotal : BitVec 64
  pcieDev : Bool

/-- What lies behind the value of a property in the blob.  Nothing is known of it. -/
abbrev Beyond := Fdt → Key → ℕ → BitVec 8

/-- Byte `i` from the start of a property's value on. -/
def byteAt (β : Beyond) (f : Fdt) (k : Key) (val : List (BitVec 8)) (i : ℕ) : BitVec 8 :=
  (val[i]?).getD (β f k i)

/-- Cell `i` from the start of a property's value on. -/
def cellOf (β : Beyond) (f : Fdt) (k : Key) (val : List (BitVec 8)) (i : ℕ) : BitVec 32 :=
  cellAt (byteAt β f k val) i

/-! ## §2 MAC addresses -/

/-- `tgt_ethaddr`, and `id` added to the last byte. -/
def macByte (b : Board) (id : Fin 2) (i : ℕ) : BitVec 8 :=
  if i = 5 then b.hwethadr 5 + BitVec.ofNat 8 id else b.hwethadr i

def macKey (id : Fin 2) : Key := (.ethernet id, .macAddress)

/-- The loop of `check_mac_ok`. -/
def macOk (β : Beyond) (b : Board) (f : Fdt) : List (Fin 2) → Bool
  | [] => true
  | id :: ids =>
    match f.getprop (macKey id) with
    | none => true
    | some [] => true
    | some val =>
      if (List.range 6).all fun i => macByte b id i = byteAt β f (macKey id) val i then
        macOk β b f ids
      else false

/-- `check_mac_ok`. -/
def checkMacOk (β : Beyond) (b : Board) (f : Fdt) : Bool := macOk β b f [0, 1]

/-- `update_mac`. -/
def updateMac (b : Board) (f : Fdt) (id : Fin 2) : Fdt :=
  match f.getprop (macKey id) with
  | none => f
  | some [] => f
  | some _ => (f.setprop (macKey id) ((List.range 6).map (macByte b id))).1

/-! ## §3 Flags -/

/-- `check_prop_ok`. -/
def checkPropOk (f : Fdt) (propname : PropName) (wanted : Bool) : Bool :=
  if f.node .soc then (f.prop (.soc, propname)).isSome = wanted else true

/-- `update_prop_flag`. -/
def updatePropFlag (f : Fdt) (propname : PropName) (wanted : Bool) : Fdt :=
  if f.node .soc then
    if wanted then
      if (f.prop (.soc, propname)).isNone then (f.setprop (.soc, propname) []).1 else f
    else f.delprop (.soc, propname)
  else f

/-! ## §4 PCI bridges -/

/-- A window of a bridge: where it starts and how long it is. -/
structure BridgeRange where
  start : BitVec 32
  size : BitVec 32

/-- The memory window that is programmed in a root port. -/
def memRange (b : Board) (dev : ℕ) : BridgeRange :=
  let val := b.conf dev 0x20
  let start := (val &&& 0xfff0) <<< 16
  ⟨start, (val &&& 0xfff00000) - start + 0x100000⟩

/-- The i/o window that is programmed in a root port. -/
def ioRange (b : Board) (dev : ℕ) : BridgeRange :=
  let val := b.conf dev 0x30
  let val1 := b.conf dev 0x1c
  let start := ((val &&& 0xffff) <<< 16) + ((val1 &&& 0xf0) <<< 8) + 0x18000000
  ⟨start, (val &&& 0xffff0000) + (val1 &&& 0xf000) + 0x18000000 - start + 0x1000⟩

/-- The root port answers. -/
def portThere (b : Board) (dev : ℕ) : Bool := b.conf dev 0 ≠ 0xffffffff

def portKey (id : Fin 6) : Key := (.port id, .ranges)

/-- The device of a root port. -/
def portDev (id : Fin 6) : ℕ := 9 + id

/-- What `check_pci_bridge_ok` wants of the cells `data` of a root port. -/
def portOk (b : Board) (dev : ℕ) (data : ℕ → BitVec 32) : Bool :=
  if portThere b dev then
    data 2 = data 3 ∧ data 2 = (memRange b dev).start ∧ data 5 = (memRange b dev).size ∧
      data 9 = data 8 ∧ data 8 = (ioRange b dev).start ∧ data 11 = (ioRange b dev).size
  else data 5 = 0x100000 ∧ data 11 = 0x1000

/-- One turn of the loop of `check_pci_bridge_ok`. -/
def checkPort (β : Beyond) (b : Board) (f : Fdt) (id : Fin 6) : Bool :=
  match f.getprop (portKey id) with
  | none => true
  | some [] => true
  | some val => portOk b (portDev id) (cellOf β f (portKey id) val)

/-- `check_pci_bridge_ok`. -/
def checkPciBridgeOk (β : Beyond) (b : Board) (f : Fdt) : Bool :=
  if b.pciProbeOnly = 0 then true else (List.finRange 6).all (checkPort β b f)

/-- The windows for the root ports that do not answer. -/
structure Spare where
  nmem : BitVec 32
  nio : BitVec 32

/-- The cells of a root port after the update. -/
def portData (data : List (BitVec 32)) (mem io : BridgeRange) : List (BitVec 32) :=
  (((((data.set 2 mem.start).set 3 mem.start).set 5 mem.size).set 8 io.start).set 9 io.start).set
    11 io.size

/-- One turn of the loop of `update_pci_bridge`. -/
def updatePort (β : Beyond) (b : Board) (s : Fdt × Spare) (id : Fin 6) : Fdt × Spare :=
  match s.1.getprop (portKey id) with
  | none => s
  | some [] => s
  | some val =>
    let data := (List.range 12).map (cellOf β s.1 (portKey id) val)
    if portThere b (portDev id) then
      let data := portData data (memRange b (portDev id)) (ioRange b (portDev id))
      ((s.1.setprop (portKey id) (cellsBytes data)).1, s.2)
    else
      let spare : Spare := ⟨s.2.nmem - 0x100000, s.2.nio - 0x1000⟩
      let data := portData data ⟨spare.nmem, 0x100000⟩ ⟨spare.nio, 0x1000⟩
      ((s.1.setprop (portKey id) (cellsBytes data)).1, spare)

/-- `update_pci_bridge`. -/
def updatePciBridge (β : Beyond) (b : Board) (f : Fdt) : Fdt :=
  if b.pciProbeOnly = 0 then f
  else ((List.finRange 6).foldl (updatePort β b) (f, ⟨0x18000000, 0x1a000000⟩)).1

/-! ## §5 Memory -/

def regKey : Key := (.memory, .reg)

/-- `max_mem`, without the memory of the graphics and the first 256 MB. -/
def maxMem (b : Board) (f : Fdt) : BitVec 64 :=
  let maxMem := b.memorysizeTotal <<< 20
  let maxMem := if ¬ b.pcieDev ∧ f.node .gpu then maxMem - 0x20000000 else maxMem
  maxMem - 0x10000000

/-- The two cells of a size. -/
def hiCell (m : BitVec 64) : BitVec 32 := m.extractLsb' 32 32

def loCell (m : BitVec 64) : BitVec 32 := m.extractLsb' 0 32

/-- `check_mem_args`. -/
def checkMemArgs (β : Beyond) (b : Board) (f : Fdt) : Bool :=
  match f.getprop regKey with
  | none => true
  | some [] => true
  | some val =>
    let p := cellOf β f regKey val
    let m := maxMem b f
    if val.length = 12 * 4 ∧ p 4 = 0 ∧ p 5 = 0x90000000 ∧ 0x70000000 < m then
      let m := m - 0x70000000
      p 6 = 0 ∧ p 7 = 0x70000000 ∧ p 8 = 1 ∧ p 9 = 0x80000000 ∧ p 10 = hiCell m ∧ p 11 = loCell m
    else if val.length = 8 * 4 ∧ p 4 = 0 ∧ p 5 = 0x90000000 then
      p 6 = hiCell m ∧ p 7 = loCell m
    else if val.length = 8 * 4 ∧ p 4 = 1 ∧ p 5 = 0x10000000 then
      p 6 = hiCell m ∧ p 7 = loCell m
    else true

/-- The number of cells of the array `data` in `update_mem_args`. -/
def dataCells : ℕ := 8

/-- Stores into an array and what lies behind it. -/
def storeAll (data : List (BitVec 32)) (stores : List (ℕ × BitVec 32)) : List (BitVec 32) :=
  stores.foldl (fun data s => data.set s.1 s.2) data

/-- `update_mem_args`: the tree, and whether something was stored outside `data`. -/
def updateMemArgs (β : Beyond) (b : Board) (f : Fdt) : Fdt × Bool :=
  match f.getprop regKey with
  | none => (f, false)
  | some [] => (f, false)
  | some val =>
    if val.length ≠ 8 * 4 then (f, false)
    else
      let data := (List.range dataCells).map (cellOf β f regKey val)
      let v := cellOf β f regKey val 4
      let v1 := cellOf β f regKey val 5
      let m := maxMem b f
      if (v ≠ 1 ∧ v1 ≠ 0x10000000) ∧ (v ≠ 0 ∧ v1 ≠ 0x90000000) then (f, false)
      else if v = 0 ∧ v1 = 0x90000000 ∧ 0x70000000 < m then
        let m := m - 0x70000000
        let stores := [(6, 0), (7, 0x70000000), (8, 1), (9, 0x80000000), (10, hiCell m),
          (11, loCell m)]
        -- the four cells behind `data` belong to something else
        let data := storeAll (data ++ List.replicate 4 0) stores
        ((f.setprop regKey (cellsBytes data)).1, stores.any fun s => dataCells ≤ s.1)
      else
        let stores := [(6, hiCell m), (7, loCell m)]
        ((f.setprop regKey (cellsBytes (storeAll data stores))).1,
          stores.any fun s => dataCells ≤ s.1)

/-! ## §6 The stored tree -/

/-- The area of the flash: the two words of the checksum and the blob between them; no blob if its
    magic is wrong. -/
structure Area where
  first : BitVec 32
  blob : Option Fdt
  last : BitVec 32

/-- `DTB_SIZE`. -/
def dtbSize : ℕ := 0x4000

/-- The sum of the words of the blob. -/
def blobSum (words : Option Fdt → List (BitVec 32)) (blob : Option Fdt) : BitVec 32 :=
  (words blob).foldl (· + ·) 0

/-- `dtb_cksum` on the stored area; `true` for a result of 0. -/
def dtbCksum (words : Option Fdt → List (BitVec 32)) (a : Area) : Bool :=
  a.first = a.last ∧ a.first + blobSum words a.blob = 0

/-- `dtb_cksum` with `set`. -/
def dtbCksumSet (words : Option Fdt → List (BitVec 32)) (blob : Option Fdt) : Area :=
  let sum := -blobSum words blob
  ⟨sum, blob, sum⟩

/-- All checks of `verify_dtb`. -/
def checksOk (β : Beyond) (b : Board) (f : Fdt) : Bool :=
  checkMacOk β b f && checkPropOk f .dmaCoherent b.ls2kVersion &&
    checkPropOk f .pciProbeOnly (b.pciProbeOnly = 1) && checkPciBridgeOk β b f &&
    checkMemArgs β b f

/-- All updates of `verify_dtb`, and whether one of them stored outside its buffers. -/
def updates (β : Beyond) (b : Board) (f : Fdt) : Fdt × Bool :=
  let f := updatePropFlag f .dmaCoherent b.ls2kVersion
  let f := updatePropFlag f .pciProbeOnly (b.pciProbeOnly = 1)
  let f := updateMac b f 0
  let f := updateMac b f 1
  let f := updatePciBridge β b f
  updateMemArgs β b f

/-- What a run of `verify_dtb` leaves: the stored area, whether it was programmed, and whether
    something was stored outside a buffer. -/
structure Verified where
  area : Area
  programmed : Bool
  outside : Bool

/-- `verify_dtb`. -/
def verifyDtb (words : Option Fdt → List (BitVec 32)) (β : Beyond) (b : Board) (a : Area) :
    Verified :=
  if ¬ dtbCksum words a then ⟨a, false, false⟩
  else
    match a.blob with
    | none => ⟨a, false, false⟩
    | some f =>
      if checksOk β b f then ⟨a, false, false⟩
      else
        -- if the tree does not fit, the buffer stays zero and every update gives up
        match f.openInto (dtbSize - 8) with
        | none => ⟨dtbCksumSet words none, true, false⟩
        | some g =>
          let r := updates β b g
          ⟨dtbCksumSet words (some r.1), true, r.2⟩

end Pmon.Dtb
