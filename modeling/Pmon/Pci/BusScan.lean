import Mathlib.Data.Nat.Init
import Mathlib.Data.Int.Notation
import Mathlib.Tactic.Common
import Pmon.Lib.DepthFirst

/-!
# The scan of the buses

`_pci_scan_dev`, `_pci_query_dev` and the bridge part of `_pci_query_dev_func` in
`sys/dev/pci/pciconf.c`: each bridge gets the next bus number from `pci_get_busno`, every bridge
above it gets that number as its subordinate one, and the bus behind it is scanned before the scan
goes on.

## Key results

- `scan_walk`: after every scan the records are those of a depth-first walk, and the register of a
  bridge holds its own number and that of the last bridge behind it.
-/

namespace Pmon.Pci

open Pmon.Lib

/-! ## §1 Topologies -/

/-- What the probes of a bus find, in the order of the scan.  `cfg` is what else there is to know
    about a function that is not a bridge. -/
inductive Bus (α : Type) where
  | none
  | func (device function : ℕ) (cfg : α) (rest : Bus α)
  | bridge (device function : ℕ) (pribus : BitVec 32) (behind rest : Bus α)

namespace Bus

variable {α : Type}

/-- The slots of a bus in which the probe finds something. -/
def slots : Bus α → List (ℕ × ℕ)
  | none => []
  | func device function _ rest => (device, function) :: rest.slots
  | bridge device function _ _ rest => (device, function) :: rest.slots

/-- The number of bridges, those behind other bridges included. -/
def bridges : Bus α → ℕ
  | none => 0
  | func _ _ _ rest => rest.bridges
  | bridge _ _ _ behind rest => 1 + behind.bridges + rest.bridges

/-- The slot comes before another one in the scan. -/
def Before (s t : ℕ × ℕ) : Prop := s.1 < t.1 ∨ s.1 = t.1 ∧ s.2 < t.2

/-- The devices go from 0 to 31, the functions of each from 0 to 7. -/
def Ordered : Bus α → Prop
  | none => True
  | func device function _ rest =>
    device < 32 ∧ function < 8 ∧ (∀ s ∈ rest.slots, Before (device, function) s) ∧ rest.Ordered
  | bridge device function _ behind rest =>
    device < 32 ∧ function < 8 ∧ (∀ s ∈ rest.slots, Before (device, function) s) ∧
      behind.Ordered ∧ rest.Ordered

end Bus

/-- A PCI topology. -/
structure Topology (α : Type) where
  root : Bus α
  ordered : root.Ordered

/-! ## §2 Bridges -/

/-- An entry of `_pci_bus`: its `struct pci_bridge`, the positions in `_pci_bus` of the bridges
    above it, nearest first, and its register `PCI_PRIBUS_1`.  The entry of the root, which has no
    such register, is left out. -/
structure Bridge where
  above : List ℕ
  pribusNum : BitVec 8
  secbusNum : BitVec 8
  subbusNum : BitVec 8
  pribus : BitVec 32

/-- The secondary bus number programmed in the bridge. -/
def Bridge.secondary (b : Bridge) : ℕ := (b.pribus.extractLsb' 8 8).toNat

/-- The subordinate bus number programmed in the bridge. -/
def Bridge.subordinate (b : Bridge) : ℕ := (b.pribus.extractLsb' 16 8).toNat

/-- A new bridge on bus `bus`; `old` is what its register holds. -/
def newBridge (dev : List ℕ) (bus n : ℕ) (old : BitVec 32) : Bridge :=
  let pribusNum := BitVec.ofNat 8 bus
  let secbusNum := BitVec.ofNat 8 n
  { above := dev
    pribusNum := pribusNum
    secbusNum := secbusNum
    subbusNum := secbusNum
    pribus := old &&& 0xff000000#32 ||| pribusNum.setWidth 32 ||| secbusNum.setWidth 32 <<< 8 |||
      secbusNum.setWidth 32 <<< 16 }

/-- The update of a bridge above a new one. -/
def Bridge.setSub (pcidev : Bridge) (secbusNum : BitVec 8) : Bridge :=
  { pcidev with
    subbusNum := secbusNum
    pribus := pcidev.pribus &&& 0xff00ffff#32 ||| secbusNum.setWidth 32 <<< 16 }

@[simp] theorem setSub_above (b : Bridge) (n : BitVec 8) : (b.setSub n).above = b.above := rfl

@[simp] theorem setSub_secbusNum (b : Bridge) (n : BitVec 8) :
    (b.setSub n).secbusNum = b.secbusNum := rfl

@[simp] theorem newBridge_above (dev : List ℕ) (bus n : ℕ) (old : BitVec 32) :
    (newBridge dev bus n old).above = dev := rfl

@[simp] theorem newBridge_secbusNum (dev : List ℕ) (bus n : ℕ) (old : BitVec 32) :
    (newBridge dev bus n old).secbusNum = BitVec.ofNat 8 n := rfl

@[simp] theorem setSub_secondary (b : Bridge) (n : BitVec 8) :
    (b.setSub n).secondary = b.secondary := by
  have h : (b.setSub n).pribus.extractLsb' 8 8 = b.pribus.extractLsb' 8 8 := by
    apply BitVec.eq_of_getLsbD_eq
    intro i hi
    simp only [Bridge.setSub]
    have : i = 0 ∨ i = 1 ∨ i = 2 ∨ i = 3 ∨ i = 4 ∨ i = 5 ∨ i = 6 ∨ i = 7 := by omega
    rcases this with rfl | rfl | rfl | rfl | rfl | rfl | rfl | rfl <;> simp
  simp only [Bridge.secondary, h]

@[simp] theorem setSub_subordinate (b : Bridge) (n : BitVec 8) :
    (b.setSub n).subordinate = n.toNat := by
  have h : (b.setSub n).pribus.extractLsb' 16 8 = n := by
    apply BitVec.eq_of_getLsbD_eq
    intro i hi
    simp only [Bridge.setSub]
    have : i = 0 ∨ i = 1 ∨ i = 2 ∨ i = 3 ∨ i = 4 ∨ i = 5 ∨ i = 6 ∨ i = 7 := by omega
    rcases this with rfl | rfl | rfl | rfl | rfl | rfl | rfl | rfl <;> simp
  simp only [Bridge.subordinate, h]

@[simp] theorem newBridge_secondary (dev : List ℕ) (bus n : ℕ) (old : BitVec 32) :
    (newBridge dev bus n old).secondary = n % 256 := by
  have h : (newBridge dev bus n old).pribus.extractLsb' 8 8 = BitVec.ofNat 8 n := by
    apply BitVec.eq_of_getLsbD_eq
    intro i hi
    simp only [newBridge]
    have : i = 0 ∨ i = 1 ∨ i = 2 ∨ i = 3 ∨ i = 4 ∨ i = 5 ∨ i = 6 ∨ i = 7 := by omega
    rcases this with rfl | rfl | rfl | rfl | rfl | rfl | rfl | rfl <;> simp
  simp [Bridge.secondary, h]

@[simp] theorem newBridge_subordinate (dev : List ℕ) (bus n : ℕ) (old : BitVec 32) :
    (newBridge dev bus n old).subordinate = n % 256 := by
  have h : (newBridge dev bus n old).pribus.extractLsb' 16 8 = BitVec.ofNat 8 n := by
    apply BitVec.eq_of_getLsbD_eq
    intro i hi
    simp only [newBridge]
    have : i = 0 ∨ i = 1 ∨ i = 2 ∨ i = 3 ∨ i = 4 ∨ i = 5 ∨ i = 6 ∨ i = 7 := by omega
    rcases this with rfl | rfl | rfl | rfl | rfl | rfl | rfl | rfl <;> simp
  simp [Bridge.subordinate, h]

/-! ## §3 The scan -/

/-- `pci_get_busno`: the bus and the device of the new bridge and the number given last. -/
abbrev GetBusno := ℕ → ℕ → ℕ → ℕ

/-- The default `pci_get_busno`. -/
def defaultBusno : GetBusno := fun _ _ bus => bus + 1

/-- The numbers of the LS2K's root ports. -/
def portBusno : ℕ → Option ℕ
  | 9 => some 1
  | 0xa => some 4
  | 0xb => some 8
  | 0xc => some 0xc
  | 0xd => some 0x10
  | 0xe => some 0x14
  | _ => none

/-- The LS2K's `pci_get_busno`. -/
def ls2kBusno : GetBusno := fun paBus paDevice bus =>
  if paBus = 0 then (portBusno paDevice).getD (bus + 1) else bus + 1

/-- `_pci_nbus`, and `_pci_bus` from entry 1 on. -/
structure Scan where
  nbus : ℕ
  pciBus : List Bridge

/-- What `_pci_query_dev_func` does for a bridge on bus `bus` before it scans the bus behind it;
    `dev` are the bridges above it. -/
def Scan.attach (s : Scan) (dev : List ℕ) (bus n : ℕ) (pribus : BitVec 32) : Scan :=
  let pd := newBridge dev bus n pribus
  { nbus := n
    pciBus := s.pciBus.mapIdx (fun i pcidev =>
      if i ∈ dev then pcidev.setSub pd.secbusNum else pcidev) ++ [pd] }

/-- `_pci_scan_dev` on what the bus numbered `bus` holds. -/
def Bus.scan {α : Type} (getBusno : GetBusno) (bus : ℕ) (dev : List ℕ) : Bus α → Scan → Scan
  | .none, s => s
  | .func _ _ _ rest, s => rest.scan getBusno bus dev s
  | .bridge device _ pribus behind rest, s =>
    let n := getBusno bus device s.nbus
    -- the bus behind the bridge is scanned under the number that its byte holds
    let s₁ := behind.scan getBusno (n % 256) (s.pciBus.length :: dev) (s.attach dev bus n pribus)
    rest.scan getBusno bus dev s₁

/-- The scan from the root, which is on bus 0. -/
def Topology.scan {α : Type} (getBusno : GetBusno) (t : Topology α) : List Bridge :=
  (t.root.scan getBusno 0 [] { nbus := 0, pciBus := [] }).pciBus

/-! ## §4 The records of a scan -/

/-- The chains of the records. -/
def chains (bs : List Bridge) : List (List ℕ) := bs.map Bridge.above

/-- The numbers of the buses behind the bridges. -/
def secNums (bs : List Bridge) : List ℕ := bs.map fun b => b.secbusNum.toNat

/-- What `attach` leaves of the record at position `i`. -/
theorem getElem?_attach (s : Scan) (dev : List ℕ) (bus n : ℕ) (pribus : BitVec 32) {i : ℕ}
    (hi : i < s.pciBus.length) :
    (s.attach dev bus n pribus).pciBus[i]? = s.pciBus[i]?.map fun b =>
      if i ∈ dev then b.setSub (BitVec.ofNat 8 n) else b := by
  simp only [Scan.attach, newBridge_secbusNum]
  rw [List.getElem?_append_left (by simpa using hi), List.getElem?_mapIdx]

theorem getElem?_attach_new (s : Scan) (dev : List ℕ) (bus n : ℕ) (pribus : BitVec 32) :
    (s.attach dev bus n pribus).pciBus[s.pciBus.length]? = some (newBridge dev bus n pribus) := by
  simp [Scan.attach]

@[simp] theorem length_attach (s : Scan) (dev : List ℕ) (bus n : ℕ) (pribus : BitVec 32) :
    (s.attach dev bus n pribus).pciBus.length = s.pciBus.length + 1 := by
  simp [Scan.attach]

/-- What `setSub` does not touch stays as it is in every record. -/
theorem map_setSub {β : Type} (f : Bridge → β) (bs : List Bridge) (dev : List ℕ) (n : BitVec 8)
    (hf : ∀ b, f (b.setSub n) = f b) :
    (bs.mapIdx fun i b => if i ∈ dev then b.setSub n else b).map f = bs.map f := by
  apply List.ext_getElem?
  intro i
  simp only [List.getElem?_map, List.getElem?_mapIdx]
  cases bs[i]? with
  | none => rfl
  | some b => simp only [Option.map_some]; split <;> simp [hf]

@[simp] theorem chains_attach (s : Scan) (dev : List ℕ) (bus n : ℕ) (pribus : BitVec 32) :
    chains (s.attach dev bus n pribus).pciBus = chains s.pciBus ++ [dev] := by
  simp only [chains, Scan.attach, List.map_append, List.map_cons, List.map_nil, newBridge_above]
  rw [map_setSub Bridge.above _ _ _ fun _ => rfl]

@[simp] theorem secNums_attach (s : Scan) (dev : List ℕ) (bus n : ℕ) (pribus : BitVec 32) :
    secNums (s.attach dev bus n pribus).pciBus = secNums s.pciBus ++ [n % 256] := by
  simp only [secNums, Scan.attach, List.map_append, List.map_cons, List.map_nil,
    newBridge_secbusNum, BitVec.toNat_ofNat]
  rw [map_setSub (fun b => b.secbusNum.toNat) _ _ _ fun _ => rfl]

@[simp] theorem length_chains (bs : List Bridge) : (chains bs).length = bs.length := by
  simp [chains]

@[simp] theorem length_secNums (bs : List Bridge) : (secNums bs).length = bs.length := by
  simp [secNums]

/-! ## §5 The walk -/

/-- What holds of the records all through a scan. -/
structure Walk (s : Scan) : Prop where
  chain : DepthFirst (chains s.pciBus)
  last : ∀ m, (secNums s.pciBus).getLast? = some m → m = s.nbus % 256
  /-- As long as no number has come round to 0, those below a bridge go up by one. -/
  next : 0 ∉ secNums s.pciBus → ∀ k u m, (chains s.pciBus)[k + 1]? = some u → u ≠ [] →
    (secNums s.pciBus)[k]? = some m → (secNums s.pciBus)[k + 1]? = some (m + 1)
  own : ∀ b ∈ s.pciBus, b.secondary = b.secbusNum.toNat
  /-- The subordinate number is that of the last bridge behind. -/
  sub : ∀ i b, s.pciBus[i]? = some b → ∃ j, Behind (chains s.pciBus) i j ∧
    (secNums s.pciBus)[j]? = some b.subordinate ∧
    ∀ k, k < s.pciBus.length → Behind (chains s.pciBus) i k → k ≤ j

/-- The scan is on the bus numbered `bus`, below the bridges `dev`. -/
structure On (s : Scan) (dev : List ℕ) (bus : ℕ) : Prop where
  opened : dev <:+ openChain (chains s.pciBus)
  number : ∀ p ds, dev = p :: ds → (secNums s.pciBus)[p]? = some bus

/-- Off the root bus `pci_get_busno` gives the next number. -/
def NextOffRoot (getBusno : GetBusno) : Prop :=
  ∀ bus device n, bus ≠ 0 → getBusno bus device n = n + 1

theorem walk_nil (n : ℕ) : Walk { nbus := n, pciBus := [] } where
  chain := depthFirst_nil
  last := by simp [secNums]
  next := by simp [chains]
  own := by simp
  sub := by simp

section Attach

variable {getBusno : GetBusno} {s : Scan} {dev : List ℕ} {bus device : ℕ} {pribus : BitVec 32}

/-- The register of every bridge is right again after a new bridge. -/
theorem sub_attach (hw : Walk s) (n i : ℕ) (b : Bridge)
    (hb : (s.attach dev bus n pribus).pciBus[i]? = some b) :
    ∃ j, Behind (chains s.pciBus ++ [dev]) i j ∧
      (secNums s.pciBus ++ [n % 256])[j]? = some b.subordinate ∧
      ∀ k, k < s.pciBus.length + 1 → Behind (chains s.pciBus ++ [dev]) i k → k ≤ j := by
  have hlen : i < s.pciBus.length + 1 := by
    simpa using (List.getElem?_eq_some_iff.mp hb).1
  by_cases hi : i = s.pciBus.length
  · -- the new bridge itself: there is nothing behind it yet
    subst hi
    rw [getElem?_attach_new, Option.some.injEq] at hb
    subst hb
    refine ⟨s.pciBus.length, Or.inl rfl, by simp [← length_secNums], fun k hk _ => by omega⟩
  · have hi' : i < s.pciBus.length := by omega
    rw [getElem?_attach s dev bus n pribus hi'] at hb
    obtain ⟨c, hc, rfl⟩ := Option.map_eq_some_iff.mp hb
    by_cases hmem : i ∈ dev
    · -- a bridge above the new one
      refine ⟨s.pciBus.length, Or.inr ⟨dev, by simp [← length_chains], hmem⟩, ?_,
        fun k hk _ => by omega⟩
      simp [hmem, ← length_secNums]
    · obtain ⟨j, hj, hsub, hmax⟩ := hw.sub i c hc
      have hjlen : j < s.pciBus.length := by
        simpa using (List.getElem?_eq_some_iff.mp hsub).1
      refine ⟨j, (behind_snoc_old (by simpa using hjlen)).mpr hj, ?_, fun k hk hbeh => ?_⟩
      · rw [List.getElem?_append_left (by simpa using hjlen)]
        simpa [hmem] using hsub
      · by_cases hk' : k = s.pciBus.length
        · subst hk'
          rw [← length_chains, behind_snoc_new, length_chains] at hbeh
          rcases hbeh with heq | hdev
          · omega
          · exact absurd hdev hmem
        · have hk'' : k < s.pciBus.length := by omega
          exact hmax k hk'' ((behind_snoc_old (by simpa using hk'')).mp hbeh)

/-- A new bridge below the last one has the next number. -/
theorem next_attach (hg : NextOffRoot getBusno) (hw : Walk s) (ho : On s dev bus)
    (h0 : 0 ∉ secNums s.pciBus ++ [getBusno bus device s.nbus % 256]) (k : ℕ) (u : List ℕ) (m : ℕ)
    (hu : (chains s.pciBus ++ [dev])[k + 1]? = some u) (hne : u ≠ [])
    (hm : (secNums s.pciBus ++ [getBusno bus device s.nbus % 256])[k]? = some m) :
    (secNums s.pciBus ++ [getBusno bus device s.nbus % 256])[k + 1]? = some (m + 1) := by
  have hlen : k + 1 < s.pciBus.length + 1 := by
    simpa using (List.getElem?_eq_some_iff.mp hu).1
  rw [List.getElem?_append_left (by simp; omega)] at hm
  simp only [List.mem_append, List.mem_singleton, not_or] at h0
  by_cases hk : k + 1 = s.pciBus.length
  · have hdev : dev = u := by simpa [hk, ← length_chains] using hu
    subst hdev
    obtain ⟨p, ds, rfl⟩ := List.exists_cons_of_ne_nil hne
    have hbus : bus ≠ 0 := by
      rintro rfl
      exact h0.1 (List.mem_of_getElem? (ho.number p ds rfl))
    have hlast : m = s.nbus % 256 := by
      apply hw.last
      rw [List.getLast?_eq_getElem?]
      simpa [← hk] using hm
    rw [hg bus device _ hbus] at h0 ⊢
    have hval : (s.nbus + 1) % 256 = m + 1 := by omega
    simp [hk, ← length_secNums, hval]
  · rw [List.getElem?_append_left (by simp; omega)] at hu
    rw [List.getElem?_append_left (by simp; omega)]
    exact hw.next h0.1 k u m hu hne hm

/-- **Step lemma**: a new bridge keeps what holds of the records. -/
theorem Walk.attach (hg : NextOffRoot getBusno) (hw : Walk s) (ho : On s dev bus) (device : ℕ)
    (pribus : BitVec 32) :
    Walk (s.attach dev bus (getBusno bus device s.nbus) pribus) where
  chain := by
    rw [chains_attach]
    exact hw.chain.snoc ho.opened
  last := by
    rw [secNums_attach]
    simp [Scan.attach]
  next := by
    rw [secNums_attach, chains_attach]
    exact next_attach hg hw ho
  own := by
    intro b hb
    obtain ⟨i, hi⟩ := List.mem_iff_getElem?.mp hb
    by_cases hlen : i < s.pciBus.length
    · rw [getElem?_attach s dev bus _ pribus hlen] at hi
      obtain ⟨c, hc, rfl⟩ := Option.map_eq_some_iff.mp hi
      have hown := hw.own c (List.mem_of_getElem? hc)
      split <;> simp [hown]
    · have heq : i = s.pciBus.length := by
        have : i < s.pciBus.length + 1 := by simpa using (List.getElem?_eq_some_iff.mp hi).1
        omega
      subst heq
      rw [getElem?_attach_new, Option.some.injEq] at hi
      subst hi
      simp
  sub := by
    rw [secNums_attach, chains_attach, length_attach]
    exact sub_attach hw _

end Attach

/-- The scan is then on the bus behind the new bridge. -/
theorem on_attach (s : Scan) (dev : List ℕ) (bus n : ℕ) (pribus : BitVec 32) :
    On (s.attach dev bus n pribus) (s.pciBus.length :: dev) (n % 256) where
  opened := by simp [chains_attach]
  number := by
    rintro p ds ⟨rfl, rfl⟩
    rw [secNums_attach, ← length_secNums, List.getElem?_concat_length]

/-- Adding records further down leaves the scan on its bus. -/
theorem On.mono {s s' : Scan} {dev : List ℕ} {bus : ℕ} (ho : On s dev bus)
    (hopen : dev <:+ openChain (chains s'.pciBus))
    (hpre : secNums s.pciBus <+: secNums s'.pciBus) : On s' dev bus where
  opened := hopen
  number := fun p ds h => by
    obtain ⟨l, hl⟩ := hpre
    have hp := ho.number p ds h
    rw [← hl, List.getElem?_append_left (List.getElem?_eq_some_iff.mp hp).1, hp]

/-! ## §6 Runs -/

/-- A scan only adds records. -/
theorem secNums_scan {α : Type} (getBusno : GetBusno) (t : Bus α) (bus : ℕ) (dev : List ℕ)
    (s : Scan) : secNums s.pciBus <+: secNums (t.scan getBusno bus dev s).pciBus := by
  induction t generalizing bus dev s with
  | none => exact List.prefix_rfl
  | func _ _ _ rest ih => exact ih bus dev s
  | bridge device _ pribus behind rest ihb ihr =>
    refine List.IsPrefix.trans ?_ (ihr bus dev _)
    refine List.IsPrefix.trans ?_ (ihb _ _ _)
    rw [secNums_attach]
    exact List.prefix_append _ _

/-- **Run lemma**: what holds of the records holds after the scan of any bus, and the scan is then
    still on that bus. -/
theorem scan_walk {α : Type} {getBusno : GetBusno} (hg : NextOffRoot getBusno) (t : Bus α)
    {bus : ℕ} {dev : List ℕ} {s : Scan} (hw : Walk s) (ho : On s dev bus) :
    Walk (t.scan getBusno bus dev s) ∧ On (t.scan getBusno bus dev s) dev bus := by
  induction t generalizing bus dev s with
  | none => exact ⟨hw, ho⟩
  | func _ _ _ rest ih => exact ih hw ho
  | bridge device _ pribus behind rest ihb ihr =>
    have hstep := hw.attach hg ho device pribus
    obtain ⟨hwb, hob⟩ := ihb hstep (on_attach s dev bus _ pribus)
    refine ihr hwb (ho.mono ?_ ?_)
    · -- below the new bridge is also below the bridges above it
      exact List.IsSuffix.trans (List.suffix_cons _ _) hob.opened
    · refine List.IsPrefix.trans ?_ (secNums_scan getBusno behind _ _ _)
      rw [secNums_attach]
      exact List.prefix_append _ _

theorem topology_walk {α : Type} {getBusno : GetBusno} (hg : NextOffRoot getBusno)
    (t : Topology α) : Walk (t.root.scan getBusno 0 [] { nbus := 0, pciBus := [] }) :=
  (scan_walk hg t.root (walk_nil 0) ⟨List.nil_suffix, fun _ _ h => (by simp at h)⟩).1

end Pmon.Pci
