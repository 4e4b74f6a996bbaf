import Mathlib.Data.Nat.Notation
import Mathlib.Logic.Function.Basic
import Mathlib.Tactic.Common

/-!
# Access to the configuration space

`_pci_conf_readn` and `_pci_conf_writen` of `Targets/LS2K/pci/ls2k_pci.c`.  The configuration space
is what the bridge has behind its window: a word at each hardware address, kept as it is written.
-/

namespace Pmon.Pci

/-! ## §1 Tags -/

/-- What `_pci_break_tag` finds in a tag. -/
def busOf (tag : ℕ) : ℕ := tag >>> 16 % 256

def deviceOf (tag : ℕ) : ℕ := tag >>> 11 % 32

def functionOf (tag : ℕ) : ℕ := tag >>> 8 % 8

/-- `_pci_make_tag`. -/
def makeTag (bus device function : ℕ) : ℕ := bus <<< 16 ||| device <<< 11 ||| function <<< 8

/-- The bridge of an entry of `_pci_bus`. -/
structure PciBridge where
  secbusNum : ℕ
  pribusNum : ℕ
  pcieType : ℕ

/-- `PCI_EXP_TYPE_ROOT_PORT`. -/
def rootPortType : ℕ := 4

/-- `is_pcie_root_port`; `buses` are the entries of `_pci_bus` from 1 on, up to the first free
    one. -/
def isPcieRootPort (buses : List PciBridge) (bus : ℕ) : Bool :=
  if bus = 0 then false
  else
    match buses.find? fun pd => pd.secbusNum = bus with
    | none => false
    | some pd => pd.pribusNum = 0 ∨ pd.pcieType = rootPortType

/-! ## §2 Hardware addresses -/

/-- `HT_MAP_TYPE0_CONF_ADDR`. -/
def htMapType0ConfAddr : ℕ := 0x900000fe00000000

/-- `HT_MAP_TYPE1_CONF_ADDR`. -/
def htMapType1ConfAddr : ℕ := 0x900000fe10000000

/-- The address that `pci_read_type0_config32` reads. -/
def type0ReadAddr (dev func reg : ℕ) : ℕ :=
  let addr := htMapType0ConfAddr ||| (dev <<< 11 ||| func <<< 8 ||| reg &&& 0xff)
  if reg > 0xff then addr ||| (reg >>> 8 &&& 0xf) <<< 24 else addr

/-- The address that `pci_write_type0_config32` writes: the register is put in a second time. -/
def type0WriteAddr (dev func reg : ℕ) : ℕ :=
  type0ReadAddr dev func reg ||| (dev <<< 11 ||| func <<< 8 ||| reg)

/-- The address that `pci_read_type1_config32` reads. -/
def type1ReadAddr (bus dev func reg : ℕ) : ℕ :=
  let addr := htMapType1ConfAddr ||| (bus <<< 16 ||| dev <<< 11 ||| func <<< 8 ||| reg &&& 0xff)
  if reg > 0xff then addr ||| (reg >>> 8 &&& 0xf) <<< 24 else addr

/-- The address that `pci_write_type1_config32` writes. -/
def type1WriteAddr (bus dev func reg : ℕ) : ℕ :=
  type1ReadAddr bus dev func reg ||| (bus <<< 16 ||| dev <<< 11 ||| func <<< 8 ||| reg)

/-! ## §3 Registers -/

/-- The words of the configuration space. -/
abbrev Conf := ℕ → BitVec 32

/-- The widths of an access. -/
inductive Width where
  | one
  | two
  | four
  deriving DecidableEq

/-- `width`. -/
def Width.bytes : Width → ℕ
  | .one => 1
  | .two => 2
  | .four => 4

def Width.bits (w : Width) : ℕ := 8 * w.bytes

/-- `0xff`, `0xffff`, or everything. -/
def Width.mask : Width → BitVec 32
  | .one => 0xff#32
  | .two => 0xffff#32
  | .four => 0xffffffff#32

/-- `(reg & 3) << 3`. -/
def laneShift (reg : ℕ) : ℕ := (reg % 4) <<< 3

/-- `reg & ~3`. -/
def wordReg (reg : ℕ) : ℕ := reg - reg % 4

/-- The test in front of an access. -/
def badReg (reg : ℕ) (w : Width) : Bool := reg % w.bytes ≠ 0 ∨ reg ≥ 0x1000

/-- The address of a register, as it is read. -/
def readAddr (tag reg : ℕ) : ℕ :=
  if busOf tag = 0 then type0ReadAddr (deviceOf tag) (functionOf tag) (wordReg reg)
  else type1ReadAddr (busOf tag) (deviceOf tag) (functionOf tag) (wordReg reg)

/-- The address of a register, as it is written. -/
def writeAddr (tag reg : ℕ) : ℕ :=
  if busOf tag = 0 then type0WriteAddr (deviceOf tag) (functionOf tag) (wordReg reg)
  else type1WriteAddr (busOf tag) (deviceOf tag) (functionOf tag) (wordReg reg)

/-- `move data to correct position`. -/
def moveData (data : BitVec 32) (reg : ℕ) : Width → BitVec 32
  | .one => (data >>> laneShift reg) &&& 0xff#32
  | .two => (data >>> laneShift reg) &&& 0xffff#32
  | .four => data

/-- The word that is written, out of the word that is there. -/
def mergeData (data : BitVec 32) (reg : ℕ) (val : BitVec 32) : Width → BitVec 32
  | .one => data &&& ~~~(0xff#32 <<< laneShift reg) ||| val <<< laneShift reg
  | .two => data &&& ~~~(0xffff#32 <<< laneShift reg) ||| val <<< laneShift reg
  | .four => val

/-- `_pci_conf_readn`. -/
def pciConfReadn (buses : List PciBridge) (conf : Conf) (tag reg : ℕ) (w : Width) : BitVec 32 :=
  if badReg reg w then 0xffffffff#32
  else if busOf tag = 0 ∧ deviceOf tag = 2 then 0xffffffff#32
  -- The ports' headers do not say that they are bridges.
  else if busOf tag = 0 ∧ (9 ≤ deviceOf tag ∧ deviceOf tag ≤ 14) ∧ reg = 8 then 0x06040001#32
  else if busOf tag ≠ 0 ∧ isPcieRootPort buses (busOf tag) ∧ deviceOf tag > 0 then 0xffffffff#32
  else moveData (conf (readAddr tag reg)) reg w

/-- `_pci_conf_writen`. -/
def pciConfWriten (buses : List PciBridge) (conf : Conf) (tag reg : ℕ) (val : BitVec 32)
    (w : Width) : Conf :=
  if badReg reg w then conf
  else if busOf tag ≠ 0 ∧ isPcieRootPort buses (busOf tag) ∧ deviceOf tag > 0 then conf
  else
    -- Only a narrow access reads the word first.
    let data := mergeData (pciConfReadn buses conf tag (wordReg reg) .four) reg val w
    Function.update conf (writeAddr tag reg) data

end Pmon.Pci
