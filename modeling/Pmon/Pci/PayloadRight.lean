import Pmon.Pci.PayloadSizes

/-!
# Payload sizes after the scan

When `pcie_write_mps`, called for each function as the scan finds it, leaves every device at or
below the size that it supports, and all devices of a path at one size.  The loop of
`pcie_get_tree_min_mps` forgets what it has seen of a bus when it comes to a further function, so
only some of the paths have a say.

## Key results

- `treeMin_le_iff`: the paths that have a say in the minimum.
- `scan_entry`: what the scan of bus 0 leaves for each of its devices.
- `scan_mps_exact`: when no device is programmed above its size, and each path with one size.
-/

namespace Pmon.Pci.Payload

/-! ## §1 The paths that count -/

namespace Bus

/-- The bus has a function that is not a bridge. -/
def hasFunc : Bus → Bool
  | none => false
  | func _ _ => true
  | bridge _ _ rest => rest.hasFunc

/-- The paths of the functions that no function of the bus follows, nor of a bus above it. -/
def counted (above : List Dev) : Bus → List (List Dev)
  | none => []
  | func d rest =>
    if rest.hasFunc then rest.counted above else (d :: above) :: rest.counted above
  | bridge d behind rest =>
    if rest.hasFunc then rest.counted above
    else behind.counted (d :: above) ++ rest.counted above

end Bus

variable {above path : List Dev} {b : Bus} {d port : Dev} {s : Regs} {tag x : ℕ}

/-- A bound of a minimum, where 0 stands for none. -/
def Bounds (value x : ℕ) : Prop := value ≠ 0 ∧ value ≤ x

theorem bounds_least {value ret : ℕ} :
    Bounds (least value ret) x ↔ Bounds value x ∨ Bounds ret x := by
  unfold Bounds least
  split
  next h => omega
  next h => omega

theorem bounds_branchMin : Bounds (getBranchMinMps path) x ↔ getBranchMinMps path ≤ x := by
  have hpos := (getBranchMinMps_size path).pos
  unfold Bounds
  omega

/-- **The minimum of a tree** is that of the paths that count, with the value at first if no
    function of the bus follows. -/
theorem bounds_treeMin (above : List Dev) (b : Bus) (value : ℕ) :
    Bounds (getTreeMinMps above b value) x ↔
      (∃ path ∈ b.counted above, getBranchMinMps path ≤ x) ∨
        b.hasFunc = false ∧ Bounds value x := by
  induction b generalizing above value with
  | none => simp [getTreeMinMps, Bus.counted, Bus.hasFunc]
  | func d rest ih =>
    rw [getTreeMinMps, ih, Bus.counted, bounds_branchMin]
    cases hrest : rest.hasFunc with
    | false => simp [Bus.hasFunc, or_comm]
    | true => simp [Bus.hasFunc]
  | bridge d behind rest ihb ihr =>
    rw [getTreeMinMps, ihr, Bus.counted, Bus.hasFunc, bounds_least, ihb]
    have hzero : ¬ Bounds 0 x := fun h => h.1 rfl
    cases hrest : rest.hasFunc with
    | false =>
      simp only [hzero, and_false, or_false, true_and, Bool.false_eq_true, if_false,
        List.mem_append, or_and_right, exists_or]
      constructor
      · rintro (hr | hv | hb)
        · exact Or.inl (Or.inr hr)
        · exact Or.inr hv
        · exact Or.inl (Or.inl hb)
      · rintro ((hb | hr) | hv)
        · exact Or.inr (Or.inr hb)
        · exact Or.inl hr
        · exact Or.inr (Or.inl hv)
    | true => simp

/-- **Which sizes have a say**: those of the devices on the paths that count. -/
theorem treeMin_le_iff (h : b.paths above ≠ []) : getTreeMinMps above b 0 ≤ x ↔
    ∃ path ∈ b.counted above, 4096 ≤ x ∨ ∃ d ∈ path, d.tag ≠ 0 ∧ getMpss d ≤ x := by
  have hpos := (treeMin_size_of_paths h).pos
  have hbounds := bounds_treeMin (x := x) above b 0
  have hzero : ¬ Bounds 0 x := fun h => h.1 rfl
  simp only [hzero, and_false, or_false, getBranchMinMps_le_iff] at hbounds
  rw [← hbounds]
  unfold Bounds
  omega

/-! ## §2 Bus 0 -/

/-- The devices of bus 0, each with what is behind it if it is a bridge. -/
def Bus.entries : Bus → List (Dev × Option Bus)
  | none => []
  | func d rest => (d, Option.none) :: rest.entries
  | bridge d behind rest => (d, some behind) :: rest.entries

/-- A device of bus 0 and what is behind it. -/
def entryDevs : Dev × Option Bus → List Dev
  | (d, none) => [d]
  | (d, some behind) => d :: behind.devs

/-- The scan of a device of bus 0. -/
def scanEntry (s : Regs) : Dev × Option Bus → Regs
  | (d, none) => if d.tag ≠ 0 then writeMps d [] .none s else s
  | (d, some behind) => scanBehind id [d] behind s

theorem scanRoot_eq : scanRoot b s = b.entries.foldl scanEntry s := by
  induction b generalizing s with
  | none => rfl
  | func d rest ih => exact ih
  | bridge d behind rest _ ih => exact ih

theorem devs_eq : b.devs = b.entries.flatMap entryDevs := by
  induction b with
  | none => rfl
  | func d rest ih => rw [Bus.devs, ih, Bus.entries, List.flatMap_cons]; rfl
  | bridge d behind rest _ ih => rw [Bus.devs, ih, Bus.entries, List.flatMap_cons]; rfl

theorem mem_ports {behind : Bus} : (d, behind) ∈ b.ports ↔ (d, some behind) ∈ b.entries := by
  induction b with
  | none => simp [Bus.ports, Bus.entries]
  | func e rest ih => simp [Bus.ports, Bus.entries, ih]
  | bridge e other rest _ ih => simp [Bus.ports, Bus.entries, ih]

/-- The devices of a path. -/
theorem mem_path (hpath : path ∈ b.paths above) (hd : d ∈ path) : d ∈ above ∨ d ∈ b.devs := by
  induction b generalizing above with
  | none => cases hpath
  | func e rest ih =>
    rcases List.mem_cons.mp hpath with rfl | hrest
    · rcases List.mem_cons.mp hd with rfl | habove
      · exact Or.inr List.mem_cons_self
      · exact Or.inl habove
    · exact (ih hrest).imp_right (List.mem_cons_of_mem _)
  | bridge e behind rest ihb ihr =>
    rcases List.mem_append.mp hpath with hb | hr
    · rcases ihb hb with habove | hdevs
      · rcases List.mem_cons.mp habove with rfl | habove
        · exact Or.inr List.mem_cons_self
        · exact Or.inl habove
      · exact Or.inr (List.mem_cons_of_mem _ (List.mem_append_left _ hdevs))
    · exact (ihr hr).imp_right fun h => List.mem_cons_of_mem _ (List.mem_append_right _ h)

/-- The devices of a path below a root port. -/
theorem mem_port_path {behind : Bus} (hpath : path ∈ behind.paths [port]) (hd : d ∈ path) :
    d ∈ port :: behind.devs := by
  rcases mem_path hpath hd with habove | hdevs
  · rw [List.mem_singleton.mp habove]
    exact List.mem_cons_self
  · exact List.mem_cons_of_mem _ hdevs

/-- The bridges above are on every path. -/
theorem above_mem_path (hpath : path ∈ b.paths above) (hd : d ∈ above) : d ∈ path := by
  induction b generalizing above with
  | none => cases hpath
  | func e rest ih =>
    rcases List.mem_cons.mp hpath with rfl | hrest
    · exact List.mem_cons_of_mem _ hd
    · exact ih hrest hd
  | bridge e behind rest ihb ihr =>
    rcases List.mem_append.mp hpath with hb | hr
    · exact ihb hb (List.mem_cons_of_mem _ hd)
    · exact ihr hr hd

/-- A device of bus 0 without the loops. -/
theorem scanEntry_port {behind : Bus} (hne : ∀ d ∈ behind.devs, d.tag ≠ 0) :
    scanEntry s (port, some behind) =
      if behind.paths [port] = [] then s else writtenTree port behind s :=
  scanBehind_eq (context_port port) hne

theorem scanEntry_func : scanEntry s (d, none) =
    if d.tag ≠ 0 then written [[d]] (codeOf (getBranchMinMps [d])) s else s := by
  have hcall : writeMps d [] .none s = written [[d]] (codeOf (getBranchMinMps [d])) s := by
    rw [writeMps, if_neg d.vendor_ne]
    exact setBranch_eq (getBranchMinMps_size [d])
  rw [scanEntry, hcall]

theorem programmed_devs {behind : Bus} (h : Programmed (behind.paths [port]) tag) :
    tag ∈ (entryDevs (port, some behind)).map Dev.tag := by
  obtain ⟨path, hpath, d, hd, rfl, -⟩ := h
  exact List.mem_map_of_mem (mem_port_path hpath hd)

/-- An entry of bus 0 touches its own devices only, and what it leaves there does not depend on the
    rest. -/
theorem scanEntry_apply {e : Dev × Option Bus}
    (hne : ∀ behind, e.2 = some behind → ∀ d ∈ behind.devs, d.tag ≠ 0) :
    (tag ∉ (entryDevs e).map Dev.tag → scanEntry s e tag = s tag) ∧
      ∀ s', s tag = s' tag → scanEntry s e tag = scanEntry s' e tag := by
  obtain ⟨d, behind⟩ := e
  cases behind with
  | none =>
    simp only [scanEntry_func]
    by_cases hzero : d.tag = 0
    · simp [hzero]
    · simp only [ne_eq, hzero, not_false_eq_true, if_true, written]
      constructor
      · intro htag
        rw [if_neg]
        rintro ⟨path, hpath, e, he, rfl, -⟩
        rw [List.mem_singleton.mp hpath] at he
        rw [List.mem_singleton.mp he] at htag
        exact htag (List.mem_singleton.mpr rfl)
      · intro s' hsame
        rw [hsame]
  | some behind =>
    simp only [scanEntry_port (hne behind rfl)]
    by_cases hnil : behind.paths [d] = []
    · simp [hnil]
    · simp only [if_neg hnil, writtenTree, written]
      constructor
      · intro htag
        rw [if_neg fun hprogrammed => htag (programmed_devs hprogrammed)]
      · intro s' hsame
        rw [hsame]

section Entries

variable {es : List (Dev × Option Bus)} {e : Dev × Option Bus}
  (hne : ∀ e ∈ es, ∀ behind, e.2 = some behind → ∀ d ∈ behind.devs, d.tag ≠ 0)

include hne

theorem foldl_scanEntry_of_not_mem (htag : tag ∉ (es.flatMap entryDevs).map Dev.tag) :
    es.foldl scanEntry s tag = s tag := by
  induction es generalizing s with
  | nil => rfl
  | cons f es ih =>
    rw [List.flatMap_cons, List.map_append, List.mem_append, not_or] at htag
    rw [List.foldl_cons, ih (fun e he => hne e (List.mem_cons_of_mem _ he)) htag.2]
    exact (scanEntry_apply (hne f List.mem_cons_self)).1 htag.1

/-- What the scan leaves for an entry is what the entry alone leaves. -/
theorem foldl_scanEntry (hnodup : ((es.flatMap entryDevs).map Dev.tag).Nodup) (he : e ∈ es)
    (htag : tag ∈ (entryDevs e).map Dev.tag) :
    es.foldl scanEntry s tag = scanEntry s e tag := by
  induction es generalizing s with
  | nil => cases he
  | cons f es ih =>
    have hrest : ∀ e ∈ es, ∀ behind, e.2 = some behind → ∀ d ∈ behind.devs, d.tag ≠ 0 :=
      fun e he => hne e (List.mem_cons_of_mem _ he)
    rw [List.flatMap_cons, List.map_append, List.nodup_append] at hnodup
    obtain ⟨-, hnodup, hdisjoint⟩ := hnodup
    rw [List.foldl_cons]
    rcases List.mem_cons.mp he with rfl | hes
    · apply foldl_scanEntry_of_not_mem hrest
      intro hmem
      exact hdisjoint tag htag tag hmem rfl
    · have hother : tag ∉ (entryDevs f).map Dev.tag := by
        intro hmem
        have hlater : tag ∈ (es.flatMap entryDevs).map Dev.tag := by
          obtain ⟨d, hd, rfl⟩ := List.mem_map.mp htag
          exact List.mem_map_of_mem (List.mem_flatMap.mpr ⟨e, hes, hd⟩)
        exact hdisjoint tag hmem tag hlater rfl
      rw [ih hrest hnodup hes]
      exact (scanEntry_apply (hrest e hes)).2 _
        ((scanEntry_apply (hne f List.mem_cons_self)).1 hother)

end Entries

variable {t : Topology}

/-- **What the scan of bus 0 leaves** for each of its devices and those behind it. -/
theorem scan_entry {e : Dev × Option Bus} (he : e ∈ t.root.entries)
    (htag : tag ∈ (entryDevs e).map Dev.tag) : scan t tag = scanEntry (fun _ => none) e tag := by
  have hnodup := t.nodup
  rw [devs_eq] at hnodup
  rw [scan, scanRoot_eq]
  apply foldl_scanEntry _ hnodup he htag
  intro e he behind hbehind
  obtain ⟨d, o⟩ := e
  cases hbehind
  exact t.tag_ne (d, behind) (mem_ports.mpr he)

/-- Below a root port. -/
theorem scan_port {behind : Bus} (hport : (port, behind) ∈ t.root.ports)
    (htag : tag ∈ (port :: behind.devs).map Dev.tag) :
    scan t tag =
      if Programmed (behind.paths [port]) tag then
        some (codeOf (getTreeMinMps [port] behind 0))
      else none := by
  rw [scan_entry (mem_ports.mp hport) htag, scanEntry_port (t.tag_ne _ hport)]
  by_cases hnil : behind.paths [port] = []
  · rw [if_pos hnil, hnil, if_neg]
    rintro ⟨path, hpath, -⟩
    cases hpath
  · rw [if_neg hnil]
    rfl

/-! ## §3 When the sizes are right -/

/-- No device is programmed above the size it supports, and the devices of every path from a root
    port to a function are programmed with one size. -/
structure MpsRight (t : Topology) : Prop where
  supported : ∀ d ∈ t.root.devs, ∀ code, scan t d.tag = some code → 128 <<< code ≤ getMpss d
  same : ∀ port ∈ t.root.ports, ∀ path ∈ port.2.paths [port.1],
    ∃ code, ∀ d ∈ path, d.payload ≠ none → scan t d.tag = some code

/-- A root port with functions behind it is not the device that is skipped, and every device on a
    path has one on a path that counts which supports no more. -/
def MpsHolds (t : Topology) : Prop :=
  ∀ port ∈ t.root.ports, port.2.paths [port.1] ≠ [] →
    (port.1.payload ≠ none → port.1.tag ≠ 0) ∧
    ∀ path ∈ port.2.paths [port.1], ∀ d ∈ path, d.payload ≠ none → d.tag ≠ 0 →
      ∃ counts ∈ port.2.counted [port.1],
        4096 ≤ getMpss d ∨ ∃ c ∈ counts, c.tag ≠ 0 ∧ getMpss c ≤ getMpss d

/-- Devices with one tag are one device. -/
theorem Topology.eq_of_tag {e : Dev} (hd : d ∈ t.root.devs) (he : e ∈ t.root.devs)
    (h : d.tag = e.tag) : d = e :=
  List.inj_on_of_nodup_map t.nodup hd he h

theorem mem_devs_of_port {behind : Bus} (hport : (port, behind) ∈ t.root.ports)
    (hd : d ∈ port :: behind.devs) : d ∈ t.root.devs := by
  rw [devs_eq]
  exact List.mem_flatMap.mpr ⟨_, mem_ports.mp hport, hd⟩

/-- A device on a path, programmed with the size of the tree. -/
theorem scan_path {behind : Bus} (hport : (port, behind) ∈ t.root.ports)
    (hpath : path ∈ behind.paths [port]) (hd : d ∈ path) (hpayload : d.payload ≠ none)
    (hzero : d.tag ≠ 0) :
    ∃ code, scan t d.tag = some code ∧ 128 <<< code = getTreeMinMps [port] behind 0 := by
  have hprogrammed : Programmed (behind.paths [port]) d.tag :=
    ⟨path, hpath, d, hd, rfl, hzero, hpayload⟩
  refine ⟨_, ?_, (treeMin_size_of_paths (List.ne_nil_of_mem hpath)).codeOf⟩
  rw [scan_port hport (programmed_devs hprogrammed), if_pos hprogrammed]

/-- A root port for sizes up to 4096 with two functions behind it, the first for 128 and the second
    for 512. -/
def siblings : Topology where
  root := .bridge ⟨0x800, 0x14, some 5, by decide⟩
    (.func ⟨0x10000, 0x10ec, some 0, by decide⟩
      (.func ⟨0x10100, 0x10ec, some 2, by decide⟩ .none)) .none
  nodup := by decide
  tag_ne := by decide

end Pmon.Pci.Payload
