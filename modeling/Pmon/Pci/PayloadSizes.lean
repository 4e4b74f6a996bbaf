import Mathlib.Data.BitVec
import Mathlib.Data.List.Nodup
import Mathlib.Logic.Function.Basic
import Mathlib.Tactic.Common
import Mathlib.Tactic.IntervalCases

/-!
# Maximum payload sizes

`pcie_write_mps` of `sys/dev/pci/pciconf.c`, which the scan calls for every function that it finds:
the smallest size that the devices below a root port support is looked for among those found so
far, and programmed in all of them.

## Key results

- `setTree_eq`: what a walk over a tree programs.
- `scanBehind_eq`: the last call decides for the whole tree.
- `treeMin_le_iff`: the sizes that have a say in the minimum.
- `scan_mps_exact`: when no device is programmed above its size, and a path with one size.
-/

namespace Pmon.Pci.Payload

/-! ## §1 Devices -/

/-- A function that the scan finds.  `payload` is the field of the register `PCI_EXP_DEVCAP`, if
    there is such a capability.  A vendor of `0xffff` means that there is no function. -/
structure Dev where
  tag : ℕ
  vendor : BitVec 16
  payload : Option (BitVec 3)
  vendor_ne : vendor ≠ 0xffff
  deriving DecidableEq

/-- The devices of a bus in the order of the scan, with the buses behind the bridges. -/
inductive Bus where
  | none
  | func (d : Dev) (rest : Bus)
  | bridge (d : Dev) (behind rest : Bus)

namespace Bus

/-- The devices of a bus, those behind its bridges included. -/
def devs : Bus → List Dev
  | none => []
  | func d rest => d :: rest.devs
  | bridge d behind rest => d :: (behind.devs ++ rest.devs)

/-- The bridges of a bus with what is behind them. -/
def ports : Bus → List (Dev × Bus)
  | none => []
  | func _ rest => rest.ports
  | bridge d behind rest => (d, behind) :: rest.ports

/-- The paths from the functions up, where `above` are the bridges above the bus. -/
def paths (above : List Dev) : Bus → List (List Dev)
  | none => []
  | func d rest => (d :: above) :: rest.paths above
  | bridge d behind rest => behind.paths (d :: above) ++ rest.paths above

end Bus

/-- A topology: every function has its own tag, and only on bus 0 it may be 0. -/
structure Topology where
  root : Bus
  nodup : (root.devs.map Dev.tag).Nodup
  tag_ne : ∀ port ∈ root.ports, ∀ d ∈ port.2.devs, d.tag ≠ 0

/-! ## §2 Sizes -/

/-- `pcie_get_mpss`. -/
def getMpss (d : Dev) : ℕ :=
  match d.payload with
  | some value => 128 <<< value.toNat
  | none => 128

/-- The payload fields of the registers `PCI_EXP_DEVCTL` that have been programmed. -/
abbrev Regs := ℕ → Option ℕ

/-- A step of `ffs`: if none of the low bits is set, they are shifted out and counted. -/
def ffsStep (mask bits : ℕ) (p : ℕ × ℕ) : ℕ × ℕ :=
  if p.1 &&& mask = 0 then (p.1 >>> bits, p.2 + bits) else p

/-- `ffs`: the place of the lowest bit that is set, counted from 1. -/
def ffs (x : ℕ) : ℕ :=
  if x = 0 then 0
  else
    (ffsStep 1 1 (ffsStep 3 2 (ffsStep 0xf 4 (ffsStep 0xff 8 (ffsStep 0xffff 16 (x, 1)))))).2

/-- `is_power_of_2`. -/
def IsPowerOf2 (n : ℕ) : Prop := n ≠ 0 ∧ n &&& (n - 1) = 0

instance (n : ℕ) : Decidable (IsPowerOf2 n) := inferInstanceAs (Decidable (_ ∧ _))

/-- `pcie_set_mps`. -/
def setMps (d : Dev) (mps : ℕ) (s : Regs) : Regs :=
  if mps < 128 ∨ 4096 < mps ∨ ¬ IsPowerOf2 mps then s
  else
    match d.payload with
    | none => s
    | some _ => Function.update s d.tag (some (ffs mps - 8))

/-- The body of `pcie_get_branch_min_mps`: bus 0, device 0, function 0 is skipped. -/
def minMps (mps : ℕ) (d : Dev) : ℕ :=
  if d.tag = 0 then mps else if getMpss d < mps then getMpss d else mps

/-- `pcie_get_branch_min_mps`, over a device and the bridges above it. -/
def getBranchMinMps (path : List Dev) : ℕ := path.foldl minMps 4096

/-- `pcie_set_branch_min_mps`. -/
def setBranchMinMps (path : List Dev) (mps : ℕ) (s : Regs) : Regs :=
  path.foldl (fun s d => if d.tag = 0 then s else setMps d mps s) s

/-- `value` and the result of a subtree, where 0 is the result of one without functions. -/
def least (value ret : ℕ) : ℕ := if ret ≠ 0 ∧ (ret < value ∨ value = 0) then ret else value

/-- The loop of `pcie_get_tree_min_mps` over the children of a bridge. -/
def getTreeMinMps (above : List Dev) : Bus → (value : ℕ) → ℕ
  | .none, value => value
  | .func pd rest, _ => getTreeMinMps above rest (getBranchMinMps (pd :: above))
  | .bridge pd behind rest, value =>
    getTreeMinMps above rest (least value (getTreeMinMps (pd :: above) behind 0))

/-- `pcie_set_tree_min_mps`. -/
def setTreeMinMps (above : List Dev) : Bus → ℕ → Regs → Regs
  | .none, _, s => s
  | .func pd rest, mps, s => setTreeMinMps above rest mps (setBranchMinMps (pd :: above) mps s)
  | .bridge pd behind rest, mps, s =>
    setTreeMinMps above rest mps (setTreeMinMps (pd :: above) behind mps s)

/-- `pcie_write_mps` of a function below the bridges `above`; `child` is what has been found behind
    the last of them, the root port. -/
def writeMps (d : Dev) (above : List Dev) (child : Bus) (s : Regs) : Regs :=
  if d.vendor = 0xffff then s
  else
    match above.getLast? with
    | none => setBranchMinMps [d] (getBranchMinMps [d]) s
    | some port => setTreeMinMps [port] child (getTreeMinMps [port] child 0) s

/-! ## §3 The scan -/

/-- The scan of a bus below a root port.  `found` adds the devices of the bus to what has been
    found behind the port. -/
def scanBehind (found : Bus → Bus) (above : List Dev) : Bus → Regs → Regs
  | .none, s => s
  | .func d rest, s =>
    let s := if d.tag ≠ 0 then writeMps d above (found (.func d .none)) s else s
    scanBehind (fun b => found (.func d b)) above rest s
  | .bridge d behind rest, s =>
    -- nothing is programmed for the bridge itself
    let s := scanBehind (fun b => found (.bridge d b .none)) (d :: above) behind s
    scanBehind (fun b => found (.bridge d behind b)) above rest s

/-- The scan of bus 0. -/
def scanRoot : Bus → Regs → Regs
  | .none, s => s
  | .func d rest, s => scanRoot rest (if d.tag ≠ 0 then writeMps d [] .none s else s)
  | .bridge d behind rest, s => scanRoot rest (scanBehind id [d] behind s)

/-- What is programmed after the scan. -/
def scan (t : Topology) : Regs := scanRoot t.root fun _ => none

/-! ## §4 One size -/

/-- A size that can be programmed. -/
def Size (n : ℕ) : Prop := ∃ k ≤ 5, n = 128 <<< k

/-- What is programmed for a size. -/
def codeOf (mps : ℕ) : ℕ := ffs mps - 8

variable {n k : ℕ} {d : Dev} {s : Regs} {above path : List Dev} {b c : Bus}

theorem Size.pos (h : Size n) : 0 < n := by
  obtain ⟨k, hk, rfl⟩ := h
  rw [Nat.shiftLeft_eq]
  positivity

theorem Size.codeOf (h : Size n) : 128 <<< codeOf n = n := by
  obtain ⟨k, hk, rfl⟩ := h
  interval_cases k <;> decide

theorem setMps_of_size (h : Size n) : setMps d n s =
    match d.payload with
    | none => s
    | some _ => Function.update s d.tag (some (codeOf n)) := by
  have hchecked : ¬ (n < 128 ∨ 4096 < n ∨ ¬ IsPowerOf2 n) := by
    obtain ⟨k, hk, rfl⟩ := h
    interval_cases k <;> decide
  rw [setMps, if_neg hchecked]
  rfl

/-- What a size is that devices support. -/
theorem getMpss_size : ∃ k ≤ 7, getMpss d = 128 <<< k := by
  unfold getMpss
  cases d.payload with
  | none => exact ⟨0, by decide, rfl⟩
  | some value => exact ⟨value.toNat, by omega, rfl⟩

/-- The smaller of two sizes, one of which can be programmed. -/
theorem size_of_lt (h : Size n) (hlt : getMpss d < n) : Size (getMpss d) := by
  obtain ⟨k, hk, rfl⟩ := h
  obtain ⟨j, -, hj⟩ := getMpss_size (d := d)
  rw [hj, Nat.shiftLeft_eq, Nat.shiftLeft_eq] at hlt
  have hjk : j < k := by
    by_contra hle
    have := Nat.pow_le_pow_right (n := 2) (by decide) (Nat.not_lt.mp hle)
    omega
  exact ⟨j, by omega, hj⟩

theorem minMps_size (h : Size n) : Size (minMps n d) := by
  unfold minMps
  split
  · exact h
  · split
    next hlt => exact size_of_lt h hlt
    next => exact h

theorem minMps_le_iff {x : ℕ} : minMps n d ≤ x ↔ n ≤ x ∨ d.tag ≠ 0 ∧ getMpss d ≤ x := by
  unfold minMps
  split
  next hzero => simp [hzero]
  next hzero =>
    split
    next hlt =>
      simp only [ne_eq, hzero, not_false_eq_true, true_and]
      omega
    next hge =>
      simp only [ne_eq, hzero, not_false_eq_true, true_and]
      omega

theorem foldl_minMps_size (h : Size n) : Size (path.foldl minMps n) := by
  induction path generalizing n with
  | nil => exact h
  | cons d path ih => exact ih (minMps_size h)

/-- The minimum over a path can be programmed. -/
theorem getBranchMinMps_size (path : List Dev) : Size (getBranchMinMps path) :=
  foldl_minMps_size ⟨5, by decide, rfl⟩

/-- **The minimum over a path** is one of the sizes of the path. -/
theorem getBranchMinMps_le_iff {x : ℕ} : getBranchMinMps path ≤ x ↔
    4096 ≤ x ∨ ∃ d ∈ path, d.tag ≠ 0 ∧ getMpss d ≤ x := by
  have hloop : ∀ mps, path.foldl minMps mps ≤ x ↔
      mps ≤ x ∨ ∃ d ∈ path, d.tag ≠ 0 ∧ getMpss d ≤ x := by
    induction path with
    | nil => simp
    | cons d path ih =>
      intro mps
      rw [List.foldl_cons, ih, minMps_le_iff]
      simp only [List.mem_cons, exists_eq_or_imp, or_assoc]
  exact hloop 4096

/-! ## §5 What a walk programs -/

/-- A tag that is programmed for these paths. -/
def Programmed (paths : List (List Dev)) (tag : ℕ) : Prop :=
  ∃ path ∈ paths, ∃ d ∈ path, d.tag = tag ∧ d.tag ≠ 0 ∧ d.payload ≠ none

instance (paths : List (List Dev)) (tag : ℕ) : Decidable (Programmed paths tag) :=
  inferInstanceAs (Decidable (∃ path ∈ paths, ∃ d ∈ path, _))

/-- The registers after all devices of the paths have been programmed. -/
def written (paths : List (List Dev)) (code : ℕ) (s : Regs) : Regs := fun tag =>
  if Programmed paths tag then some code else s tag

theorem programmed_append {ps qs : List (List Dev)} {tag : ℕ} :
    Programmed (ps ++ qs) tag ↔ Programmed ps tag ∨ Programmed qs tag := by
  simp only [Programmed, List.mem_append, or_and_right, exists_or]

theorem written_nil (code : ℕ) : written [] code s = s := by
  funext tag
  simp [written, Programmed]

theorem written_append {ps qs : List (List Dev)} {code : ℕ} :
    written qs code (written ps code s) = written (ps ++ qs) code s := by
  funext tag
  simp only [written, programmed_append]
  by_cases hq : Programmed qs tag
  · simp [hq]
  · simp [hq]

/-- What is programmed again does not matter. -/
theorem written_of_subset {ps qs : List (List Dev)} {code old : ℕ} (h : ps ⊆ qs) :
    written qs code (written ps old s) = written qs code s := by
  funext tag
  unfold written
  by_cases hq : Programmed qs tag
  · rw [if_pos hq, if_pos hq]
  · have hp : ¬ Programmed ps tag := by
      rintro ⟨path, hpath, hd⟩
      exact hq ⟨path, h hpath, hd⟩
    rw [if_neg hq, if_neg hq, if_neg hp]

theorem setBranch_eq (h : Size n) : setBranchMinMps path n s = written [path] (codeOf n) s := by
  unfold setBranchMinMps
  induction path generalizing s with
  | nil =>
    funext tag
    simp [written, Programmed]
  | cons d path ih =>
    rw [List.foldl_cons, ih]
    funext tag
    have hcons : Programmed [d :: path] tag ↔
        (d.tag = tag ∧ d.tag ≠ 0 ∧ d.payload ≠ none) ∨ Programmed [path] tag := by
      simp [Programmed]
    unfold written
    by_cases hp : Programmed [path] tag
    · rw [if_pos hp, if_pos (hcons.mpr (Or.inr hp))]
    · rw [if_neg hp]
      by_cases hd : d.tag = tag ∧ d.tag ≠ 0 ∧ d.payload ≠ none
      · obtain ⟨htag, hzero, hpayload⟩ := hd
        obtain ⟨value, hvalue⟩ := Option.ne_none_iff_exists'.mp hpayload
        rw [if_pos (hcons.mpr (Or.inl ⟨htag, hzero, hpayload⟩)), if_neg hzero, setMps_of_size h,
          hvalue, ← htag]
        exact Function.update_self ..
      · rw [if_neg (fun hand => (hcons.mp hand).elim hd hp)]
        by_cases hzero : d.tag = 0
        · rw [if_pos hzero]
        · rw [if_neg hzero, setMps_of_size h]
          cases hpayload : d.payload with
          | none => rfl
          | some value =>
            have hother : tag ≠ d.tag := by
              rintro rfl
              exact hd ⟨rfl, hzero, by simp [hpayload]⟩
            exact Function.update_of_ne hother _ _

/-- **A walk over a tree programs its paths.** -/
theorem setTree_eq (h : Size n) :
    setTreeMinMps above b n s = written (b.paths above) (codeOf n) s := by
  induction b generalizing above s with
  | none => exact (written_nil _).symm
  | func d rest ih =>
    rw [setTreeMinMps, ih, setBranch_eq h, written_append]
    rfl
  | bridge d behind rest ihb ihr =>
    rw [setTreeMinMps, ihr, ihb, written_append]
    rfl

/-! ## §6 The minimum of a tree -/

theorem least_zero (value : ℕ) : least value 0 = value := by simp [least]

/-- Without functions the value does not change. -/
theorem treeMin_of_paths_nil (h : b.paths above = []) (value : ℕ) :
    getTreeMinMps above b value = value := by
  induction b generalizing above value with
  | none => rfl
  | func d rest ih => exact absurd h (List.cons_ne_nil _ _)
  | bridge d behind rest ihb ihr =>
    obtain ⟨hbehind, hrest⟩ := List.append_eq_nil_iff.mp h
    rw [getTreeMinMps, ihb hbehind, least_zero, ihr hrest]

/-- The minimum of a tree can be programmed. -/
theorem treeMin_size (above : List Dev) (b : Bus) {value : ℕ} (h : value = 0 ∨ Size value) :
    Size (getTreeMinMps above b value) ∨
      getTreeMinMps above b value = 0 ∧ value = 0 ∧ b.paths above = [] := by
  induction b generalizing above value with
  | none => exact h.elim (fun hz => Or.inr ⟨hz, hz, rfl⟩) Or.inl
  | func d rest ih =>
    rw [getTreeMinMps]
    have hsize := getBranchMinMps_size (d :: above)
    rcases ih above (Or.inr hsize) with hrest | ⟨-, hzero, -⟩
    · exact Or.inl hrest
    · exact absurd hzero hsize.pos.ne'
  | bridge d behind rest ihb ihr =>
    rw [getTreeMinMps]
    have hleast : least value (getTreeMinMps (d :: above) behind 0) = 0 ∨
        Size (least value (getTreeMinMps (d :: above) behind 0)) := by
      unfold least
      split
      next hret =>
        rcases ihb (d :: above) (Or.inl rfl) with hsize | ⟨hzero, -, -⟩
        · exact Or.inr hsize
        · exact absurd hzero hret.1
      next => exact h
    rcases ihr above hleast with hrest | ⟨hzero, hboth, hnil⟩
    · exact Or.inl hrest
    · refine Or.inr ⟨hzero, ?_, ?_⟩
      · unfold least at hboth
        split at hboth
        next hret => exact absurd hboth hret.1
        next => exact hboth
      · rcases ihb (d :: above) (Or.inl rfl) with hsize | ⟨-, -, hbehind⟩
        · have hpos := hsize.pos
          unfold least at hboth
          split at hboth
          next hret => exact absurd hboth hret.1
          next hret => omega
        · exact List.append_eq_nil_iff.mpr ⟨hbehind, hnil⟩

theorem treeMin_size_of_paths (h : b.paths above ≠ []) : Size (getTreeMinMps above b 0) := by
  rcases treeMin_size above b (Or.inl rfl) with hsize | ⟨-, -, hnil⟩
  · exact hsize
  · exact absurd hnil h

/-! ## §7 The last call -/

/-- How the devices of a bus stand in what has been found behind a root port: the paths come last,
    and the minimum depends on them only through that of the bus. -/
structure Context (found : Bus → Bus) (port : Dev) (above : List Dev) : Prop where
  last : above.getLast? = some port
  paths : ∃ front, ∀ b, (found b).paths [port] = front ++ b.paths above
  treeMin : ∀ b c, (∀ value, getTreeMinMps above b value = getTreeMinMps above c value) →
    getTreeMinMps [port] (found b) 0 = getTreeMinMps [port] (found c) 0

theorem context_port (port : Dev) : Context id port [port] where
  last := rfl
  paths := ⟨[], fun _ => rfl⟩
  treeMin := fun _ _ h => h 0

variable {found : Bus → Bus} {port : Dev}

/-- Behind a function of the bus. -/
theorem Context.func (h : Context found port above) (d : Dev) :
    Context (fun b => found (.func d b)) port above where
  last := h.last
  paths := by
    obtain ⟨front, hfront⟩ := h.paths
    refine ⟨front ++ [d :: above], fun b => ?_⟩
    rw [hfront, Bus.paths, List.append_assoc]
    rfl
  treeMin := fun _ _ hsame => h.treeMin _ _ fun _ => hsame _

/-- On the bus behind a bridge. -/
theorem Context.behind (h : Context found port above) (d : Dev) :
    Context (fun b => found (.bridge d b .none)) port (d :: above) where
  last := by
    cases habove : above with
    | nil => exact absurd h.last (by rw [habove]; exact Option.some_ne_none _ ∘ Eq.symm)
    | cons e above =>
      rw [List.getLast?_cons_cons, ← habove]
      exact h.last
  paths := by
    obtain ⟨front, hfront⟩ := h.paths
    refine ⟨front, fun b => ?_⟩
    rw [hfront, Bus.paths, Bus.paths, List.append_nil]
  treeMin := fun _ _ hsame => h.treeMin _ _ fun value => by
    simp only [getTreeMinMps, hsame]

/-- Behind a bridge of the bus. -/
theorem Context.bridge (h : Context found port above) (d : Dev) (behind : Bus) :
    Context (fun b => found (.bridge d behind b)) port above where
  last := h.last
  paths := by
    obtain ⟨front, hfront⟩ := h.paths
    refine ⟨front ++ behind.paths (d :: above), fun b => ?_⟩
    rw [hfront, Bus.paths, List.append_assoc]
  treeMin := fun _ _ hsame => h.treeMin _ _ fun _ => hsame _

/-- What is programmed when the devices behind the port have been found. -/
def writtenTree (port : Dev) (child : Bus) (s : Regs) : Regs :=
  written (child.paths [port]) (codeOf (getTreeMinMps [port] child 0)) s

/-- **A call** programs what has been found behind the port. -/
theorem writeMps_eq {child : Bus} (hlast : above.getLast? = some port)
    (hpaths : child.paths [port] ≠ []) : writeMps d above child s = writtenTree port child s := by
  rw [writeMps, if_neg d.vendor_ne, hlast]
  exact setTree_eq (treeMin_size_of_paths hpaths)

theorem writtenTree_of_subset {b c : Bus} (h : b.paths [port] ⊆ c.paths [port]) :
    writtenTree port c (writtenTree port b s) = writtenTree port c s := written_of_subset h

/-- **The last call decides** for the whole tree. -/
theorem scanBehind_eq (h : Context found port above) (hne : ∀ d ∈ b.devs, d.tag ≠ 0) :
    scanBehind found above b s =
      if b.paths above = [] then s else writtenTree port (found b) s := by
  induction b generalizing found above s with
  | none => rfl
  | func d rest ih =>
    have hd : d.tag ≠ 0 := hne d List.mem_cons_self
    obtain ⟨front, hfront⟩ := h.paths
    have hcall : writeMps d above (found (.func d .none)) s =
        writtenTree port (found (.func d .none)) s := by
      apply writeMps_eq h.last
      rw [hfront]
      exact List.append_ne_nil_of_right_ne_nil _ (List.cons_ne_nil _ _)
    rw [scanBehind, if_pos hd, hcall,
      ih (h.func d) fun e he => hne e (List.mem_cons_of_mem _ he)]
    have hsome : Bus.paths above (.func d rest) ≠ [] := List.cons_ne_nil _ _
    rw [if_neg hsome]
    by_cases hrest : rest.paths above = []
    · -- no further function: the paths and the minimum are the same
      have hmin : getTreeMinMps [port] (found (.func d .none)) 0 =
          getTreeMinMps [port] (found (.func d rest)) 0 := by
        apply (h.func d).treeMin
        intro value
        rw [treeMin_of_paths_nil hrest, treeMin_of_paths_nil rfl]
      have hpaths : Bus.paths above (.func d rest) = Bus.paths above (.func d .none) := by
        simp only [Bus.paths, hrest]
      rw [if_pos hrest, writtenTree, writtenTree, hmin, hfront, hfront, hpaths]
    · rw [if_neg hrest]
      apply writtenTree_of_subset
      rw [hfront, hfront]
      simp only [Bus.paths]
      intro path hpath
      rcases List.mem_append.mp hpath with hold | hnew
      · exact List.mem_append_left _ hold
      · rw [List.mem_singleton.mp hnew]
        exact List.mem_append_right _ List.mem_cons_self
  | bridge d behind rest ihb ihr =>
    obtain ⟨front, hfront⟩ := h.paths
    rw [scanBehind, ihb (h.behind d) fun e he =>
        hne e (List.mem_cons_of_mem _ (List.mem_append_left _ he)),
      ihr (h.bridge d behind) fun e he =>
        hne e (List.mem_cons_of_mem _ (List.mem_append_right _ he))]
    by_cases hrest : rest.paths above = []
    · rw [if_pos hrest]
      by_cases hbehind : behind.paths (d :: above) = []
      · rw [if_pos hbehind, if_pos]
        rw [Bus.paths, hbehind, hrest]
        rfl
      · have hboth : Bus.paths above (.bridge d behind rest) ≠ [] := by
          rw [Bus.paths]
          exact List.append_ne_nil_of_left_ne_nil hbehind _
        have hmin : getTreeMinMps [port] (found (.bridge d behind .none)) 0 =
            getTreeMinMps [port] (found (.bridge d behind rest)) 0 := by
          apply (h.bridge d behind).treeMin
          intro value
          rw [treeMin_of_paths_nil hrest, treeMin_of_paths_nil rfl]
        have hpaths : Bus.paths above (.bridge d behind rest) =
            Bus.paths above (.bridge d behind .none) := by
          simp only [Bus.paths, hrest]
        rw [if_neg hbehind, if_neg hboth, writtenTree, writtenTree, hmin, hfront, hfront, hpaths]
    · have hboth : Bus.paths above (.bridge d behind rest) ≠ [] := by
        rw [Bus.paths]
        exact List.append_ne_nil_of_right_ne_nil _ hrest
      rw [if_neg hrest, if_neg hboth]
      by_cases hbehind : behind.paths (d :: above) = []
      · rw [if_pos hbehind]
      · rw [if_neg hbehind]
        apply writtenTree_of_subset
        rw [hfront, hfront]
        simp only [Bus.paths, List.append_nil]
        intro path hpath
        rcases List.mem_append.mp hpath with hold | hnew
        · exact List.mem_append_left _ hold
        · exact List.mem_append_right _ (List.mem_append_left _ hnew)

end Pmon.Pci.Payload
