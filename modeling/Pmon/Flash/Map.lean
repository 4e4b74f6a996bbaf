import Mathlib.Data.BitVec
import Mathlib.Tactic.Common

/-!
# Flash maps and devices

The tables of `include/pflash.h`: where flash memory stands in the address space and how its chips
are connected, the devices, and how an address is taken to its map.

## Key results

- `flFindMap_contains`: the map that is found contains the address.
- `waitBusy_eq_busy_iff`: when the wait for a device ends with a device that is busy.
-/

namespace Pmon.Flash

/-! ## §1 Maps -/

/-- `fl_map_bus`: how wide the bus is. -/
inductive Bus where
  | bus8
  | bus16
  | bus32
  | bus64
  | bus8On64
  | bus16On64
  deriving DecidableEq

/-- `struct fl_map`.  A map lies in the address space, and an `int` counts up to its end. -/
structure FlMap where
  flMapBase : BitVec 32
  flMapSize : ℕ
  /-- Number of bytes to program in one cycle. -/
  flMapWidth : ℕ
  /-- Number of chips to operate in one cycle. -/
  flMapChips : ℕ
  flMapBus : Bus
  /-- Where the map begins in the device. -/
  flMapOffset : ℕ
  width_pos : 0 < flMapWidth
  chips_pos : 0 < flMapChips
  end_le : flMapBase.toNat + flMapSize ≤ 4294967296
  size_lt : flMapSize + flMapWidth < 2147483648

/-- An address of the map. -/
def FlMap.Contains (map : FlMap) (base : BitVec 32) : Prop :=
  map.flMapBase.toNat ≤ base.toNat ∧ base.toNat < map.flMapBase.toNat + map.flMapSize

instance (map : FlMap) (base : BitVec 32) : Decidable (map.Contains base) :=
  inferInstanceAs (Decidable (_ ∧ _))

/-- `fl_find_map`, over the table before the entry of size 0. -/
def flFindMap (maps : List FlMap) (base : BitVec 32) : Option FlMap :=
  maps.find? fun map => map.Contains base

/-- The map that is found contains the address. -/
theorem flFindMap_contains {maps : List FlMap} {base : BitVec 32} {map : FlMap}
    (h : flFindMap maps base = some map) : map.Contains base := by
  have hfound := List.find?_some h
  simpa using hfound

/-! ## §2 Devices -/

/-- `struct fl_device`, as far as it says how the device is divided into sectors. -/
structure FlDevice where
  flSecsize : ℕ
  /-- The sizes of the sectors, if they differ. -/
  flVarsecsize : Option (List ℕ)

/-- `fl_devident`: the map of an address, with the device that answers there. -/
def flDevident (known : FlMap → Option FlDevice) (maps : List FlMap) (base : BitVec 32) :
    Option (FlMap × FlDevice) :=
  (flFindMap maps base).bind fun map => (known map).map fun dev => (map, dev)

theorem flDevident_contains {known : FlMap → Option FlDevice} {maps : List FlMap}
    {base : BitVec 32} {map : FlMap} {dev : FlDevice}
    (h : flDevident known maps base = some (map, dev)) : map.Contains base := by
  unfold flDevident at h
  obtain ⟨found, hfound, hdev⟩ := Option.bind_eq_some_iff.mp h
  obtain ⟨_, _, hpair⟩ := Option.map_eq_some_iff.mp hdev
  rw [← (Prod.mk.inj hpair).1]
  exact flFindMap_contains hfound

/-- What `isbusy` answers. -/
inductive Busy where
  | failed
  | done
  | busy
  deriving DecidableEq

/-- The number of an answer. -/
def Busy.code : Busy → ℤ
  | failed => -1
  | done => 0
  | busy => 1

/-- `PFLASH_MAX_TIMEOUT`. -/
def pflashMaxTimeout : ℕ := 16000

/-- The loop that waits for a device, from the given count on: its last answer, and the count at
    the end. -/
def waitBusy (isbusy : ℕ → Busy) (timeout : ℕ) : Busy × ℕ :=
  if isbusy timeout = .busy ∧ timeout < pflashMaxTimeout then waitBusy isbusy (timeout + 1)
  else (isbusy timeout, timeout)
termination_by pflashMaxTimeout - timeout

/-- **The wait ends with a busy device** exactly if the device is busy until the limit. -/
theorem waitBusy_eq_busy_iff {isbusy : ℕ → Busy} {timeout : ℕ} (h : timeout ≤ pflashMaxTimeout) :
    (waitBusy isbusy timeout).1 = .busy ↔
      ∀ t, timeout ≤ t → t ≤ pflashMaxTimeout → isbusy t = .busy := by
  fun_induction waitBusy isbusy timeout with
  | case1 timeout hbusy ih =>
    rw [ih hbusy.2]
    constructor
    · intro hrest t hlo hhi
      rcases Nat.eq_or_lt_of_le hlo with rfl | hlt
      · exact hbusy.1
      · exact hrest t hlt hhi
    · intro hall t hlo hhi
      exact hall t (by omega) hhi
  | case2 timeout hends =>
    constructor
    · intro hbusy t hlo hhi
      -- the limit is reached
      have hlimit : ¬ timeout < pflashMaxTimeout := fun hlt => hends ⟨hbusy, hlt⟩
      obtain rfl : t = timeout := by omega
      exact hbusy
    · intro hall
      exact hall timeout (Nat.le_refl _) h

end Pmon.Flash
