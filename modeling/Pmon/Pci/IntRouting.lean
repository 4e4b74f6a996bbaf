import Mathlib.Data.BitVec
import Mathlib.Data.Fin.VecNotation
import Mathlib.Data.List.Forall2
import Mathlib.Tactic.FinCases
import Mathlib.Tactic.IntervalCases
import Pmon.Pci.BusScan
import Pmon.Pci.ConfAccess

/-!
# The routing of interrupts

`_pci_setupIntRouting` of `sys/dev/pci/pciconf.c` gives every device four routes, one for each of
its interrupt pins.  Without an entry in `_pci_inthead` these are the routes of the device above it,
rotated by the number of the device.  `_pci_query_dev_func` then writes one of them to the
interrupt line of the device, always the one for pin A.

## Key results

- `queried_eq`: the routes of every device are those of the root, rotated by the device numbers on
  the path to it.
- `intRouting_exact`: exactly when each line is the route of the pin that the device reports.
-/

namespace Pmon.Pci

/-! ## §1 The routes of a device -/

/-- `intr_routing`: the routes of the pins A to D. -/
abbrev Routes := Fin 4 → BitVec 8

/-- An entry of `_pci_inthead`. -/
structure IntlineRouting where
  bus : ℕ
  device : ℕ
  function : ℕ
  intline : ℕ → Routes

def IntlineRouting.tag (pi : IntlineRouting) : ℕ := makeTag pi.bus pi.device pi.function

/-- What there is to know about a `struct pci_device`. -/
structure RoutedDev where
  tag : ℕ
  intrRouting : Routes

/-- `_pci_setupIntRouting`. -/
def setupIntRouting (inthead : List IntlineRouting) (parent : RoutedDev) (device : ℕ) : Routes :=
  match inthead.find? fun pi => parent.tag = pi.tag with
  | some pi => pi.intline device
  | none =>
    let r := parent.intrRouting
    match device % 4 with
    | 0 => ![r 0, r 1, r 2, r 3]
    | 1 => ![r 1, r 2, r 3, r 0]
    | 2 => ![r 2, r 3, r 0, r 1]
    | _ => ![r 3, r 0, r 1, r 2]

/-- `_pci_getIntRouting`. -/
def getIntRouting (dev : RoutedDev) : BitVec 8 := dev.intrRouting 0

/-- `PCI_INTERRUPT_PIN`: 1 for A. -/
def intPin (icr : BitVec 32) : ℕ := ((icr >>> 8) &&& 0xff#32).toNat

/-- `PCI_INTERRUPT_LINE`. -/
def intLine (icr : BitVec 32) : BitVec 8 := icr.setWidth 8

/-- What is written to `PCI_INTERRUPT_REG`, from what is read there. -/
def mapIntLine (bparam : BitVec 32) (pd : RoutedDev) : BitVec 32 :=
  bparam &&& ~~~0xff#32 ||| ((getIntRouting pd).setWidth 32 &&& 0xff#32)

/-- A device of the scan, with what was read from its register and what was written. -/
structure QueriedDev extends RoutedDev where
  bparam : BitVec 32
  written : BitVec 32

/-- The part of `_pci_query_dev_func` for the interrupts; `intReg` is what the registers hold. -/
def queryInt (inthead : List IntlineRouting) (intReg : ℕ → BitVec 32) (parent : RoutedDev)
    (bus device function : ℕ) : QueriedDev :=
  let tag := makeTag bus device function
  let pd : RoutedDev := ⟨tag, setupIntRouting inthead parent device⟩
  { pd with bparam := intReg tag, written := mapIntLine (intReg tag) pd }

/-- The devices that `_pci_scan_dev` finds, in its order, and `_pci_nbus` afterwards. -/
def Bus.queried {α : Type} (inthead : List IntlineRouting) (getBusno : GetBusno)
    (intReg : ℕ → BitVec 32) (bus : ℕ) (parent : RoutedDev) : Bus α → ℕ → List QueriedDev × ℕ
  | .none, nbus => ([], nbus)
  | .func device function _ rest, nbus =>
    let pd := queryInt inthead intReg parent bus device function
    let next := rest.queried inthead getBusno intReg bus parent nbus
    (pd :: next.1, next.2)
  | .bridge device function _ behind rest, nbus =>
    let pd := queryInt inthead intReg parent bus device function
    let n := getBusno bus device nbus
    let child := behind.queried inthead getBusno intReg (n % 256) pd.toRoutedDev n
    let next := rest.queried inthead getBusno intReg bus parent child.2
    (pd :: (child.1 ++ next.1), next.2)

/-! ## §2 Where the devices are -/

/-- A device: the device numbers on the path to it from the root, its own first, and its tag. -/
structure Place where
  path : List ℕ
  tag : ℕ

/-- The devices of a bus; `above` is the path of the bridge before it. -/
def Bus.places {α : Type} (getBusno : GetBusno) (bus : ℕ) (above : List ℕ) :
    Bus α → ℕ → List Place × ℕ
  | .none, nbus => ([], nbus)
  | .func device function _ rest, nbus =>
    let next := rest.places getBusno bus above nbus
    (⟨device :: above, makeTag bus device function⟩ :: next.1, next.2)
  | .bridge device function _ behind rest, nbus =>
    let n := getBusno bus device nbus
    let child := behind.places getBusno (n % 256) (device :: above) n
    let next := rest.places getBusno bus above child.2
    (⟨device :: above, makeTag bus device function⟩ :: (child.1 ++ next.1), next.2)

/-- The numbers of the buses are those of the scan. -/
theorem places_nbus {α : Type} (getBusno : GetBusno) (t : Bus α) (bus : ℕ) (above dev : List ℕ)
    (s : Scan) : (t.places getBusno bus above s.nbus).2 = (t.scan getBusno bus dev s).nbus := by
  induction t generalizing bus above dev s with
  | none => rfl
  | func device function cfg rest ih => exact ih bus above dev s
  | bridge device function pribus behind rest ihb ihr =>
    have hbehind := ihb (getBusno bus device s.nbus % 256) (device :: above)
      (s.pciBus.length :: dev) (s.attach dev bus (getBusno bus device s.nbus) pribus)
    unfold Bus.places Bus.scan
    dsimp only
    rw [← ihr bus above dev, ← hbehind]
    rfl

/-- The pins of a device `k` numbers further on are wired to those of the root. -/
def rotate (r : Routes) (k : ℕ) : Routes := fun p => r (p + Fin.ofNat 4 k)

theorem rotate_zero (r : Routes) : rotate r 0 = r := by
  funext p
  exact congrArg r (Fin.add_zero p)

theorem rotate_rotate (r : Routes) (j k : ℕ) : rotate (rotate r j) k = rotate r (k + j) := by
  funext p
  unfold rotate
  congr 1
  ext
  simp only [Fin.val_add, Fin.val_ofNat]
  omega

theorem rotate_mod (r : Routes) (k : ℕ) : rotate r (k % 4) = rotate r k := by
  funext p
  unfold rotate
  congr 1
  ext
  simp [Fin.val_add]

/-- There is no entry for what is behind the bridge with this tag. -/
def Unlisted (inthead : List IntlineRouting) (tag : ℕ) : Prop := ∀ pi ∈ inthead, tag ≠ pi.tag

/-- **The table written out by hand** is a rotation. -/
theorem setupIntRouting_eq {inthead : List IntlineRouting} {parent : RoutedDev}
    (h : Unlisted inthead parent.tag) (device : ℕ) :
    setupIntRouting inthead parent device = rotate parent.intrRouting device := by
  have hfind : inthead.find? (fun pi => parent.tag = pi.tag) = none :=
    List.find?_eq_none.mpr fun pi hpi => by simpa using h pi hpi
  have hlt : device % 4 < 4 := Nat.mod_lt _ (by decide)
  unfold setupIntRouting
  rw [hfind, ← rotate_mod]
  dsimp only
  generalize device % 4 = k at hlt ⊢
  funext p
  interval_cases k
  all_goals fin_cases p <;> rfl

/-! ## §3 All devices of a tree -/

/-- What the scan should leave of the device at a place. -/
def routedAt (root : Routes) (intReg : ℕ → BitVec 32) (x : Place) : QueriedDev :=
  let pd : RoutedDev := ⟨x.tag, rotate root x.path.sum⟩
  { pd with bparam := intReg x.tag, written := mapIntLine (intReg x.tag) pd }

variable {α : Type} {inthead : List IntlineRouting} {getBusno : GetBusno} {intReg : ℕ → BitVec 32}
  {root : Routes}

/-- One device: its routes are those of the device above it, rotated once more. -/
theorem queryInt_eq {parent : RoutedDev} {above : List ℕ} (hlist : Unlisted inthead parent.tag)
    (hroutes : parent.intrRouting = rotate root above.sum) (bus device function : ℕ) :
    queryInt inthead intReg parent bus device function =
      routedAt root intReg ⟨device :: above, makeTag bus device function⟩ := by
  have hsetup : setupIntRouting inthead parent device = rotate root (device :: above).sum := by
    rw [setupIntRouting_eq hlist, hroutes, rotate_rotate, List.sum_cons]
  unfold queryInt routedAt
  rw [hsetup]

/-- **Every device at any depth** has the routes of the root, rotated by the sum of the device
    numbers on the path to it. -/
theorem queried_eq (t : Bus α) (bus nbus : ℕ) {parent : RoutedDev} {above : List ℕ}
    (hparent : Unlisted inthead parent.tag)
    (hlist : ∀ x ∈ (t.places getBusno bus above nbus).1, Unlisted inthead x.tag)
    (hroutes : parent.intrRouting = rotate root above.sum) :
    t.queried inthead getBusno intReg bus parent nbus =
      ((t.places getBusno bus above nbus).1.map (routedAt root intReg),
        (t.places getBusno bus above nbus).2) := by
  induction t generalizing bus nbus parent above with
  | none => rfl
  | func device function cfg rest ih =>
    obtain ⟨-, hrest⟩ := List.forall_mem_cons.mp hlist
    unfold Bus.queried Bus.places
    dsimp only
    rw [queryInt_eq hparent hroutes, ih bus nbus hparent hrest hroutes]
    rfl
  | bridge device function pribus behind rest ihb ihr =>
    obtain ⟨hself, hmore⟩ := List.forall_mem_cons.mp hlist
    obtain ⟨hbehind, hrest⟩ := List.forall_mem_append.mp hmore
    have hpd : queryInt inthead intReg parent bus device function =
        routedAt root intReg ⟨device :: above, makeTag bus device function⟩ :=
      queryInt_eq hparent hroutes bus device function
    -- the bus behind starts from the routes of the bridge
    have hchild := @ihb (getBusno bus device nbus % 256) (getBusno bus device nbus)
      (routedAt root intReg ⟨device :: above, makeTag bus device function⟩).toRoutedDev _
      hself hbehind rfl
    unfold Bus.queried Bus.places
    dsimp only
    rw [hpd, hchild, ihr bus _ hparent hrest hroutes, List.map_cons, List.map_append]

/-! ## §4 The lines -/

/-- The line written for the device is the route of the pin that it reports. -/
def LineRight (d : QueriedDev) : Prop :=
  ∀ p : Fin 4, intPin d.bparam = p + 1 → intLine d.written = d.intrRouting p

/-- **What the scan is for**: each device has the routes of the root, rotated, and the line of its
    pin. -/
structure RoutedRight (root : Routes) (xs : List Place) (ds : List QueriedDev) : Prop where
  routes : List.Forall₂ (fun x d => d.tag = x.tag ∧ d.intrRouting = rotate root x.path.sum) xs ds
  lines : ∀ d ∈ ds, LineRight d

/-- The line is that of pin A, whatever was there. -/
theorem intLine_mapIntLine (bparam : BitVec 32) (pd : RoutedDev) :
    intLine (mapIntLine bparam pd) = pd.intrRouting 0 := by
  unfold intLine mapIntLine getIntRouting
  apply BitVec.eq_of_getLsbD_eq
  intro i hi
  have hall : i = 0 ∨ i = 1 ∨ i = 2 ∨ i = 3 ∨ i = 4 ∨ i = 5 ∨ i = 6 ∨ i = 7 := by omega
  rcases hall with rfl | rfl | rfl | rfl | rfl | rfl | rfl | rfl
  all_goals simp

theorem forall₂_routedAt (xs : List Place) :
    List.Forall₂ (fun x d => d.tag = x.tag ∧ d.intrRouting = rotate root x.path.sum) xs
      (xs.map (routedAt root intReg)) := by
  apply List.forall₂_map_right_iff.mpr
  exact List.forall₂_same.mpr fun x _ => ⟨rfl, rfl⟩

/-- **The routing of interrupts**: the routes are right in every tree without entries of
    `_pci_inthead`; the lines are exactly when no device reports a pin with another route than its
    pin A. -/
theorem intRouting_exact (t : Bus α) (getBusno : GetBusno) (inthead : List IntlineRouting)
    (intReg : ℕ → BitVec 32) (root : RoutedDev) (hroot : Unlisted inthead root.tag)
    (hlist : ∀ x ∈ (t.places getBusno 0 [] 0).1, Unlisted inthead x.tag) :
    RoutedRight root.intrRouting (t.places getBusno 0 [] 0).1
        (t.queried inthead getBusno intReg 0 root 0).1 ↔
      ∀ x ∈ (t.places getBusno 0 [] 0).1, ∀ p : Fin 4, intPin (intReg x.tag) = p + 1 →
        rotate root.intrRouting x.path.sum 0 = rotate root.intrRouting x.path.sum p := by
  have hroot₀ : root.intrRouting = rotate root.intrRouting ([] : List ℕ).sum :=
    (rotate_zero _).symm
  have hline : ∀ x : Place, intLine (routedAt root.intrRouting intReg x).written =
      rotate root.intrRouting x.path.sum 0 := fun x => intLine_mapIntLine (intReg x.tag) _
  rw [queried_eq t 0 0 hroot hlist hroot₀]
  constructor
  · intro h x hx p hp
    rw [← hline x]
    exact h.lines _ (List.mem_map_of_mem hx) p hp
  · intro h
    refine ⟨forall₂_routedAt _, fun d hd p hp => ?_⟩
    obtain ⟨x, hx, rfl⟩ := List.mem_map.mp hd
    rw [hline x]
    exact h x hx p hp

/-- A card behind a bridge, and the four routes of the root. -/
def cardBehindBridge : Bus Unit := .bridge 9 0 0#32 (.func 1 0 () .none) .none

def rootRoutes : RoutedDev := ⟨0, ![1, 2, 3, 4]⟩

/-- The card reports pin A; behind device 9 and as device 1 that is pin C of the root. -/
theorem intRouting_cardBehindBridge :
    (Unlisted [] rootRoutes.tag ∧
      ∀ x ∈ (cardBehindBridge.places defaultBusno 0 [] 0).1, Unlisted [] x.tag) ∧
      RoutedRight rootRoutes.intrRouting (cardBehindBridge.places defaultBusno 0 [] 0).1
        (cardBehindBridge.queried [] defaultBusno (fun _ => 0x100#32) 0 rootRoutes 0).1 := by
  have hroot : Unlisted [] rootRoutes.tag := fun pi hpi => nomatch hpi
  have hlist : ∀ x ∈ (cardBehindBridge.places defaultBusno 0 [] 0).1, Unlisted [] x.tag :=
    fun x _ pi hpi => nomatch hpi
  refine ⟨⟨hroot, hlist⟩, (intRouting_exact cardBehindBridge defaultBusno [] (fun _ => 0x100#32)
    rootRoutes hroot hlist).mpr fun x _ p hp => ?_⟩
  -- only pin A has the number 1
  have hp' : 1 = (p : ℕ) + 1 := hp
  have h0 : p = 0 := Fin.ext (Nat.succ.inj hp'.symm)
  rw [h0]

/-- **A card that reports pin B** gets the line of pin A. -/
theorem line_pinB :
    ¬ RoutedRight rootRoutes.intrRouting
      ((Bus.func 0 0 () .none : Bus Unit).places defaultBusno 0 [] 0).1
      ((Bus.func 0 0 () .none : Bus Unit).queried [] defaultBusno (fun _ => 0x200#32) 0
        rootRoutes 0).1 := by
  intro h
  have hline := h.lines _ (List.mem_cons_self ..) 1 (by decide)
  revert hline
  decide

end Pmon.Pci
