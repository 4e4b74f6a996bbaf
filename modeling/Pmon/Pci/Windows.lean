import Mathlib.Data.List.Sort
import Pmon.Lib.Packing
import Pmon.Pci.BusScan

/-!
# The windows of the devices

The rest of `_pci_query_dev_func` and `_pci_setup_windows` in `sys/dev/pci/pciconf.c`.  The scan
lists the windows that each bus needs, those of a bridge being as large as the windows behind it
together.  `_pci_setup_windows` then hands out the addresses, bus by bus from the root on.  No
window has a fixed address (`pci_alloc_fixmemio` returns -1), bridges have no base registers of
their own, and addresses go upwards.
-/

namespace Pmon.Pci

open Pmon.Lib

/-! ## §1 Base registers -/

/-- The two address spaces. -/
inductive Space where
  | mem
  | io
  deriving DecidableEq

/-- A function that is not a bridge: whether it is an IDE controller, and what each base register
    reads after all ones have been written to it. -/
structure Func where
  ide : Bool
  mask : ℕ → BitVec 32

/-- What the probe of a base register finds. -/
structure Probe where
  space : Space
  reg : ℕ
  size : BitVec 32

/-- The loop over the base registers; `skipnext` after a register of 64 bits. -/
def probeBars (mask : ℕ → BitVec 32) : List ℕ → Bool → List Probe
  | [], _ => []
  | _ :: regs, true => probeBars mask regs false
  | reg :: regs, false =>
    let m := mask reg
    if m = 0 ∨ m = 0xffffffff#32 then probeBars mask regs false
    else if m &&& 1 = 1 then
      -- the upper half of an i/o register may be wired to zero
      ⟨.io, reg, -((m ||| 0xffff0000#32) &&& 0xfffffff8#32)⟩ :: probeBars mask regs false
    else if m &&& 6 = 6 then probeBars mask regs false
    else ⟨.mem, reg, -(m &&& 0xfffffff0#32)⟩ :: probeBars mask regs (m &&& 6 = 4)

/-- `PCI_MAPREG_ROM`. -/
def mapregRom : ℕ := 0x30

/-- The expansion ROM. -/
def probeRom (mask : ℕ → BitVec 32) : List Probe :=
  let m := mask mapregRom
  if m ≠ 0 ∧ m ≠ 0xffffffff#32 then [⟨.mem, mapregRom, -(m &&& 0xfffff800#32)⟩] else []

/-- All that is found of a function.  While the buses are scanned only the root bus, `onRoot`, has
    i/o addresses. -/
def Func.probe (onRoot : Bool) (f : Func) : List Probe :=
  if f.ide ∧ ¬ onRoot then []
  else probeBars f.mask [0x10, 0x14, 0x18, 0x1c, 0x20, 0x24] false ++ probeRom f.mask

/-! ## §2 Windows -/

/-- What `_pci_setup_windows` looks at in the bridge of a window: whether there is a device behind
    it, and its `mem_mask` or `io_mask`. -/
structure BridgeInfo where
  child : Bool
  mask : BitVec 32

/-- A `struct pci_win`; `device` is the place of its device among those of the bus. -/
structure PciWin where
  device : ℕ
  reg : ℕ
  size : BitVec 32
  align : BitVec 32
  bridge : Option BridgeInfo

/-- The least size of a bridge's window. -/
def Space.granule : Space → BitVec 32
  | .mem => 0x100000
  | .io => 0x1000

/-- The register of a bridge's window: `PCI_MEMBASE_1` or `PCI_IOBASEL_1`. -/
def Space.bridgeReg : Space → ℕ
  | .mem => 0x20
  | .io => 0x1c

/-- `_insertsort_window`. -/
def insertsortWindow : List PciWin → PciWin → List PciWin
  | [], pm => [pm]
  | pm2 :: rest, pm =>
    if pm2.align ≤ pm.align then pm :: pm2 :: rest else pm2 :: insertsortWindow rest pm

/-- `_pci_roundup`; its arguments are of type `int`. -/
def pciRoundup (value round : BitVec 32) : BitVec 32 :=
  let result := value.toInt.tdiv round.toInt * round.toInt
  let result :=
    if value.toInt.tmod round.toInt ≠ 0 ∨ value.toInt = 0 then result + round.toInt else result
  BitVec.ofInt 32 result

/-- The largest alignment on a bus. -/
def maxAlign (pms : List PciWin) : BitVec 32 :=
  pms.foldl (fun max pm => if max < pm.align then pm.align else max) 0

/-- The sum of the sizes on a bus. -/
def sumSize (pms : List PciWin) : BitVec 32 := pms.foldl (fun size pm => size + pm.size) 0

/-- The window of a bridge for the windows `pms` behind it. -/
def bridgeWindow (sp : Space) (device : ℕ) (child : Bool) (pms : List PciWin) : PciWin :=
  let max := maxAlign pms
  let size := (sumSize pms + max - 1) &&& ~~~(max - 1)
  -- `max` is an `int`
  let max := if max.slt sp.granule then sp.granule else max
  { device := device
    reg := sp.bridgeReg
    size := pciRoundup size sp.granule
    align := max
    bridge := some ⟨child, ~~~(max - 1)⟩ }

/-- The windows of a function in one space. -/
def funcWindows (sp : Space) (onRoot : Bool) (device : ℕ) (f : Func) : List PciWin :=
  ((f.probe onRoot).filter fun p => p.space = sp).map fun p =>
    { device := device, reg := p.reg, size := p.size, align := p.size, bridge := none }

/-- The devices of a bus after the scan, with the lists of windows of the bridges. -/
inductive Dev where
  | none
  | func (next : Dev)
  | bridge (wins : Space → List PciWin) (child next : Dev)

def Dev.isNone : Dev → Bool
  | .none => true
  | _ => false

/-- The scan of a bus, from its device number `k` on: the bus's lists of windows and its devices. -/
def query (onRoot : Bool) : ℕ → Bus Func → (Space → List PciWin) → (Space → List PciWin) × Dev
  | _, .none, l => (l, .none)
  | k, .func _ _ f rest, l =>
    let r := query onRoot (k + 1) rest fun sp =>
      (funcWindows sp onRoot k f).foldl insertsortWindow (l sp)
    (r.1, .func r.2)
  | k, .bridge _ _ _ behind rest, l =>
    let b := query false 0 behind fun _ => []
    let r := query onRoot (k + 1) rest fun sp =>
      insertsortWindow (l sp) (bridgeWindow sp k (!b.2.isNone) (b.1 sp))
    (r.1, .bridge b.1 b.2 r.2)

/-! ## §3 Addresses -/

/-- The addresses that a bus has left, `minpci…addr` and `nextpci…addr`. -/
structure SecBus where
  min : BitVec 32
  next : BitVec 32

/-- `fls`. -/
def fls (x : BitVec 32) : ℕ :=
  if x = 0 then 0
  else
    let (x, r) := if x &&& 0xffff0000#32 = 0 then (x <<< 16, 32 - 16) else (x, 32)
    let (x, r) := if x &&& 0xff000000#32 = 0 then (x <<< 8, r - 8) else (x, r)
    let (x, r) := if x &&& 0xf0000000#32 = 0 then (x <<< 4, r - 4) else (x, r)
    let (x, r) := if x &&& 0xc0000000#32 = 0 then (x <<< 2, r - 2) else (x, r)
    if x &&& 0x80000000#32 = 0 then r - 1 else r

/-- The alignment at which a window is put. -/
def PciWin.setupAlign (pm : PciWin) : BitVec 32 :=
  match pm.bridge with
  | some ⟨true, mask⟩ => ~~~mask + 1
  | _ => 1#32 <<< ((fls pm.size + 31) % 32)  -- the count of a shift is taken modulo 32

/-- `_pci_allocate_mem` and `_pci_allocate_io`. -/
def allocate (secbus : SecBus) (size align : BitVec 32) : Option (BitVec 32 × SecBus) :=
  let address := (secbus.min + align - 1) &&& ~~~(align - 1)
  let address1 := address + size
  if secbus.next < address1 ∨ address1 < secbus.min then none
  else some (address, { secbus with min := address1 })

/-- The address of a window for which there is no room, `pci_bigmem_address` or
    `pci_bigio_address` being `pool`, and what these are then. -/
def Space.fallBack (sp : Space) (pool size : BitVec 32) : BitVec 32 × BitVec 32 :=
  match sp with
  | .mem =>
    let address := (pool + size - 1) &&& ~~~(size - 1)
    (address, address + size)
  | .io => (pool, pool + size)

/-- The memory window of a bridge is rounded up once more. -/
def PciWin.settle (sp : Space) (pm : PciWin) (address : BitVec 32) : BitVec 32 :=
  match sp, pm.bridge with
  | .mem, some b => (address + ~~~b.mask) &&& b.mask
  | _, _ => address

/-- A window with its address; `fellBack` if there was no room for it on its bus. -/
structure Placed where
  win : PciWin
  address : BitVec 32
  fellBack : Bool

/-- The loop of `_pci_setup_windows` over the windows of one space. -/
def place (sp : Space) : List PciWin → SecBus → BitVec 32 → List Placed × BitVec 32
  | [], _, pool => ([], pool)
  | pm :: rest, secbus, pool =>
    match allocate secbus pm.size pm.setupAlign with
    | some (address, secbus') =>
      let r := place sp rest secbus' pool
      (⟨pm, pm.settle sp address, false⟩ :: r.1, r.2)
    | none =>
      let a := sp.fallBack pool pm.size
      let r := place sp rest secbus a.2
      (⟨pm, pm.settle sp a.1, true⟩ :: r.1, r.2)

/-- The window of the bridge that is device `k`. -/
def windowOf (ps : List Placed) (k : ℕ) : Option Placed :=
  ps.find? fun p => p.win.device = k ∧ p.win.bridge.isSome

/-- The addresses for the bus behind the bridge that is device `k`. -/
def secbusOf (ps : List Placed) (k : ℕ) : SecBus :=
  match windowOf ps k with
  | some w => ⟨w.address, w.address + w.win.size⟩
  | none => ⟨0, 0⟩

/-- The windows on the buses behind the devices of a bus. -/
inductive Layout where
  | none
  | func (next : Layout)
  | bridge (wins : Space → List Placed) (behind next : Layout)

/-- `_pci_setup_windows` for the bridges of a bus, from its device number `k` on; `ps` are the
    windows on the bus. -/
def setupBehind (ps : Space → List Placed) :
    ℕ → Dev → (Space → BitVec 32) → Layout × (Space → BitVec 32)
  | _, .none, pool => (.none, pool)
  | k, .func next, pool =>
    let r := setupBehind ps (k + 1) next pool
    (.func r.1, r.2)
  | k, .bridge wins child next, pool =>
    let qs := fun sp => place sp (wins sp) (secbusOf (ps sp) k) (pool sp)
    let b := setupBehind (fun sp => (qs sp).1) 0 child fun sp => (qs sp).2
    let r := setupBehind ps (k + 1) next b.2
    (.bridge (fun sp => (qs sp).1) b.1 r.1, r.2)

/-- The windows of the root bus, and those behind its devices. -/
structure Setup where
  wins : Space → List Placed
  behind : Layout

/-- The windows that the root bus needs. -/
def rootRequests (t : Bus Func) : Space → List PciWin := (query true 0 t fun _ => []).1

/-- Scan and `_pci_setup_windows` from the root bus, whose addresses are `root`; `pool` are
    `pci_bigmem_address` and `pci_bigio_address`. -/
def setupWindows (root : Space → SecBus) (pool : Space → BitVec 32) (t : Bus Func) : Setup :=
  let qs := fun sp => place sp (rootRequests t sp) (root sp) (pool sp)
  let b := setupBehind (fun sp => (qs sp).1) 0 (query true 0 t fun _ => []).2 fun sp => (qs sp).2
  { wins := fun sp => (qs sp).1, behind := b.1 }

end Pmon.Pci
