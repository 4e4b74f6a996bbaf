import Mathlib.Data.List.Nodup
import Pmon.Pci.BusScan

/-!
# The bus numbers of a scan

Every bridge has a bus behind it, and the scan numbers the buses.  With the default
`pci_get_busno` the numbers of a topology that fits in 255 buses are those of a depth-first walk.
The LS2K's jumps to a fixed number at each root port, whether or not the numbers before it have
come so far already.

## Key results

- `busNumbers_exact`: with the default the numbers are always right, with the LS2K's exactly when
  what comes before each root port leaves its fixed number free.
-/

namespace Pmon.Pci

open Pmon.Lib

/-! ## §1 What the numbers are for -/

/-- The numbers of the bridges `bs` are right. -/
structure Numbered (bs : List Bridge) : Prop where
  /-- All bus numbers differ, the 0 of the root bus included. -/
  different : (0 :: secNums bs).Nodup
  /-- The interval of a bridge contains the numbers of the buses behind it, and no other. -/
  interval : ∀ i b, bs[i]? = some b → ∀ n, (b.secondary ≤ n ∧ n ≤ b.subordinate) ↔
    ∃ j, Behind (chains bs) i j ∧ (secNums bs)[j]? = some n
  /-- The intervals of two bridges on one bus are disjoint. -/
  siblings : ∀ (i j : ℕ) (b c : Bridge), bs[i]? = some b → bs[j]? = some c → b.above = c.above →
    i ≠ j → ∀ n, ¬ ((b.secondary ≤ n ∧ n ≤ b.subordinate) ∧ (c.secondary ≤ n ∧ n ≤ c.subordinate))

/-- **The records of a walk are numbered right as soon as their numbers increase from 1 on.** -/
theorem Walk.numbered {s : Scan} (hw : Walk s) (hinc : (0 :: secNums s.pciBus).Pairwise (· < ·)) :
    Numbered s.pciBus := by
  rw [List.pairwise_cons] at hinc
  have h0 : 0 ∉ secNums s.pciBus := fun h => absurd (hinc.1 0 h) (by omega)
  have hn : Numbering (chains s.pciBus) (secNums s.pciBus) :=
    ⟨by simp, hinc.2, hw.next h0⟩
  have hint : ∀ i b, s.pciBus[i]? = some b → ∀ n, (b.secondary ≤ n ∧ n ≤ b.subordinate) ↔
      ∃ j, Behind (chains s.pciBus) i j ∧ (secNums s.pciBus)[j]? = some n := by
    intro i b hb n
    obtain ⟨j, hj, hsub, hmax⟩ := hw.sub i b hb
    have hown : (secNums s.pciBus)[i]? = some b.secondary := by
      rw [hw.own b (List.mem_of_getElem? hb)]
      simp [secNums, hb]
    exact mem_interval hw.chain hn hown hsub hj (by simpa using hmax) n
  refine ⟨List.nodup_cons.mpr ⟨h0, hinc.2.imp fun h => Nat.ne_of_lt h⟩, hint, ?_⟩
  rintro i j b c hb hc habove hne n ⟨hbn, hcn⟩
  have hi : (chains s.pciBus)[i]? = some b.above := by simp [chains, hb]
  have hj : (chains s.pciBus)[j]? = some b.above := by simp [chains, hc, habove]
  exact interval_disjoint hw.chain hn hi hj hne ((hint i b hb n).mp hbn) ((hint j c hc n).mp hcn)

/-! ## §2 The numbers that are given -/

namespace Bus

variable {α : Type}

/-- `_pci_nbus` after a scan that starts at `n`. -/
def counter (getBusno : GetBusno) (bus n : ℕ) : Bus α → ℕ
  | none => n
  | func _ _ _ rest => rest.counter getBusno bus n
  | bridge device _ _ behind rest =>
    let m := getBusno bus device n
    rest.counter getBusno bus (behind.counter getBusno (m % 256) m)

/-- The numbers that a scan gives. -/
def given (getBusno : GetBusno) (bus n : ℕ) : Bus α → List ℕ
  | none => []
  | func _ _ _ rest => rest.given getBusno bus n
  | bridge device _ _ behind rest =>
    let m := getBusno bus device n
    m % 256 :: behind.given getBusno (m % 256) m ++
      rest.given getBusno bus (behind.counter getBusno (m % 256) m)

end Bus

theorem nbus_scan {α : Type} (getBusno : GetBusno) (t : Bus α) (bus : ℕ) (dev : List ℕ)
    (s : Scan) : (t.scan getBusno bus dev s).nbus = t.counter getBusno bus s.nbus := by
  induction t generalizing bus dev s with
  | none => rfl
  | func _ _ _ rest ih => exact ih bus dev s
  | bridge device _ pribus behind rest ihb ihr =>
    simp only [Bus.scan, Bus.counter]
    rw [ihr, ihb]
    rfl

theorem secNums_scan_eq {α : Type} (getBusno : GetBusno) (t : Bus α) (bus : ℕ) (dev : List ℕ)
    (s : Scan) : secNums (t.scan getBusno bus dev s).pciBus =
      secNums s.pciBus ++ t.given getBusno bus s.nbus := by
  induction t generalizing bus dev s with
  | none => simp [Bus.scan, Bus.given]
  | func _ _ _ rest ih => exact ih bus dev s
  | bridge device _ pribus behind rest ihb ihr =>
    simp only [Bus.scan, Bus.given]
    rw [ihr, ihb, nbus_scan, secNums_attach]
    simp [Scan.attach]

theorem secNums_topology {α : Type} (getBusno : GetBusno) (t : Topology α) :
    secNums (t.scan getBusno) = t.root.given getBusno 0 0 := by
  rw [Topology.scan, secNums_scan_eq]
  simp [secNums]

section OffRoot

variable {α : Type} {getBusno : GetBusno} (hg : NextOffRoot getBusno)

include hg

/-- Off the root bus the numbers go up by one. -/
theorem counter_given (t : Bus α) (bus n : ℕ) (hbus : bus ≠ 0) (hn : n + t.bridges ≤ 255) :
    t.counter getBusno bus n = n + t.bridges ∧
      t.given getBusno bus n = List.range' (n + 1) t.bridges := by
  induction t generalizing bus n with
  | none => simp [Bus.counter, Bus.given, Bus.bridges]
  | func _ _ _ rest ih => exact ih bus n hbus hn
  | bridge device _ pribus behind rest ihb ihr =>
    simp only [Bus.bridges] at hn
    have hmod : (n + 1) % 256 = n + 1 := by omega
    obtain ⟨hbc, hbg⟩ := ihb (n + 1) (n + 1) (by omega) (by omega)
    obtain ⟨hrc, hrg⟩ := ihr bus (n + 1 + behind.bridges) hbus (by omega)
    simp only [Bus.counter, Bus.given, Bus.bridges, hg bus device n hbus, hmod, hbc, hbg, hrc, hrg]
    refine ⟨by omega, ?_⟩
    have hlen : 1 + behind.bridges + rest.bridges = behind.bridges + rest.bridges + 1 := by omega
    have hstart : n + 1 + behind.bridges + 1 = n + 1 + 1 + behind.bridges := by omega
    rw [hlen, hstart, List.range'_succ, ← List.range'_append_1, List.cons_append]

/-- If there are too many for a byte, one of them is 0. -/
theorem zero_mem_given (t : Bus α) (bus n : ℕ) (hbus : bus ≠ 0) (hlo : n ≤ 255)
    (hn : 255 < n + t.bridges) : 0 ∈ t.given getBusno bus n := by
  induction t generalizing bus n with
  | none => simp only [Bus.bridges] at hn; omega
  | func _ _ _ rest ih => exact ih bus n hbus hlo hn
  | bridge device _ pribus behind rest ihb ihr =>
    simp only [Bus.bridges] at hn
    simp only [Bus.given, hg bus device n hbus]
    by_cases h255 : n = 255
    · subst h255
      simp
    · have hmod : (n + 1) % 256 = n + 1 := by omega
      rw [hmod]
      by_cases hb : 255 < n + 1 + behind.bridges
      · have := ihb (n + 1) (n + 1) (by omega) (by omega) hb
        simp [this]
      · obtain ⟨hbc, -⟩ := counter_given hg behind (n + 1) (n + 1) (by omega) (by omega)
        have := ihr bus (n + 1 + behind.bridges) hbus (by omega) (by omega)
        simp [hbc, this]

end OffRoot

/-! ## §3 The root bus -/

/-- Every bridge on the root bus gets a number above those given before it, the last of which is
    `n`, and the numbers of the buses behind it end at 255. -/
def Bus.Fits {α : Type} (getBusno : GetBusno) (n : ℕ) : Bus α → Prop
  | .none => True
  | .func _ _ _ rest => rest.Fits getBusno n
  | .bridge device _ _ behind rest =>
    n < getBusno 0 device n ∧ getBusno 0 device n + behind.bridges ≤ 255 ∧
      rest.Fits getBusno (getBusno 0 device n + behind.bridges)

section Root

variable {α : Type} {getBusno : GetBusno} (hg : NextOffRoot getBusno)

include hg

/-- The numbers given at a bridge of the root bus, where they fit. -/
theorem given_bridge {device function n : ℕ} {pribus : BitVec 32} {behind rest : Bus α}
    (hlo : n < getBusno 0 device n) (hhi : getBusno 0 device n + behind.bridges ≤ 255) :
    (Bus.bridge device function pribus behind rest).given getBusno 0 n =
      List.range' (getBusno 0 device n) (behind.bridges + 1) ++
        rest.given getBusno 0 (getBusno 0 device n + behind.bridges) := by
  have hmod : getBusno 0 device n % 256 = getBusno 0 device n := by omega
  obtain ⟨hc, hgiv⟩ := counter_given hg behind (getBusno 0 device n) (getBusno 0 device n)
    (by omega) hhi
  simp only [Bus.given, hmod, hc, hgiv, List.range'_succ]

/-- Numbers that fit increase. -/
theorem increasing_of_fits (t : Bus α) {n : ℕ} (hfit : t.Fits getBusno n) :
    (n :: t.given getBusno 0 n).Pairwise (· < ·) := by
  induction t generalizing n with
  | none => simp [Bus.given]
  | func _ _ _ rest ih => exact ih hfit
  | bridge device _ pribus behind rest ihb ihr =>
    obtain ⟨hlo, hhi, hrest⟩ := hfit
    have hpair := List.pairwise_cons.mp (ihr hrest)
    rw [given_bridge hg hlo hhi]
    refine List.pairwise_cons.mpr ⟨fun x hx => ?_, ?_⟩
    · rcases List.mem_append.mp hx with hmem | hmem
      · have := (List.mem_range'_1.mp hmem).1
        omega
      · have := hpair.1 x hmem
        omega
    · refine List.pairwise_append.mpr ⟨List.pairwise_lt_range' , hpair.2, fun x hx y hy => ?_⟩
      have hxm := (List.mem_range'_1.mp hx).2
      have hym := hpair.1 y hy
      omega

/-- If the numbers behind a bridge of the root bus go over 255, one of them is 0. -/
theorem zero_mem_bridge {device function n : ℕ} {pribus : BitVec 32} {behind rest : Bus α}
    (hlo : n < getBusno 0 device n) (h256 : getBusno 0 device n ≤ 256)
    (hhi : 255 < getBusno 0 device n + behind.bridges) :
    0 ∈ (Bus.bridge device function pribus behind rest).given getBusno 0 n := by
  simp only [Bus.given]
  by_cases heq : getBusno 0 device n = 256
  · simp [heq]
  · have hmod : getBusno 0 device n % 256 = getBusno 0 device n := by omega
    have := zero_mem_given hg behind (getBusno 0 device n) (getBusno 0 device n)
      (by omega) (by omega) hhi
    simp [hmod, this]

end Root

theorem fits_default {α : Type} (t : Bus α) {n : ℕ} (hn : n + t.bridges ≤ 255) :
    t.Fits defaultBusno n := by
  induction t generalizing n with
  | none => trivial
  | func _ _ _ rest ih => exact ih hn
  | bridge device _ pribus behind rest ihb ihr =>
    simp only [Bus.bridges] at hn
    simp only [Bus.Fits, defaultBusno]
    exact ⟨by omega, by omega, ihr (by omega)⟩

/-! ## §4 The LS2K -/

theorem nextOffRoot_default : NextOffRoot defaultBusno := fun _ _ _ _ => rfl

theorem nextOffRoot_ls2k : NextOffRoot ls2kBusno := fun bus _ n h => by simp [ls2kBusno, h]

/-- The fixed numbers of the root ports go up with the device. -/
theorem portBusno_mono {d d' f f' : ℕ} (h : portBusno d = some f) (h' : portBusno d' = some f')
    (hd : d ≤ d') : f ≤ f' := by
  unfold portBusno at h h'
  split at h <;> split at h' <;> simp_all <;> omega

theorem portBusno_range {d f : ℕ} (h : portBusno d = some f) : 0 < f ∧ f ≤ 20 := by
  unfold portBusno at h
  split at h <;> simp_all <;> omega

/-- Numbers that differ fit.  From `lo`, which no root port to come goes below, up to `n` every
    number is given already. -/
theorem fits_of_nodup {α : Type} (t : Bus α) (hord : t.Ordered) (n lo : ℕ) (used : List ℕ)
    (h0 : 0 ∈ used) (hused : ∀ m, lo ≤ m → m ≤ n → m ∈ used) (hn : n ≤ 255)
    (hports : ∀ s ∈ t.slots, ∀ f, portBusno s.1 = some f → lo ≤ f)
    (hnd : (used ++ t.given ls2kBusno 0 n).Nodup) : t.Fits ls2kBusno n := by
  induction t generalizing n lo used with
  | none => trivial
  | func device function _ rest ih =>
    exact ih hord.2.2.2 n lo used h0 hused hn (fun s hs => hports s (List.mem_cons_of_mem _ hs)) hnd
  | bridge device function pribus behind rest ihb ihr =>
    obtain ⟨-, -, hbefore, -, hrest⟩ := hord
    have hdis := (List.nodup_append.mp hnd).2.2
    -- the number of the bridge is above those given before
    have hlo : n < ls2kBusno 0 device n ∧ ls2kBusno 0 device n ≤ 256 := by
      cases hp : portBusno device with
      | none => simp [ls2kBusno, hp]; omega
      | some f =>
        have hf : ls2kBusno 0 device n = f := by simp [ls2kBusno, hp]
        have hlof := hports (device, function) (by simp [Bus.slots]) f hp
        have hrange := portBusno_range hp
        rw [hf]
        refine ⟨?_, by omega⟩
        by_contra hge
        have hmod : f % 256 = f := by omega
        exact hdis f (hused f hlof (by omega)) f (by simp [Bus.given, hf, hmod]) rfl
    -- and the bytes do not come round to 0
    have hhi : ls2kBusno 0 device n + behind.bridges ≤ 255 := by
      by_contra hgt
      exact hdis 0 h0 0
        (zero_mem_bridge nextOffRoot_ls2k hlo.1 hlo.2 (by omega)) rfl
    refine ⟨hlo.1, hhi, ?_⟩
    rw [given_bridge nextOffRoot_ls2k hlo.1 hhi, ← List.append_assoc] at hnd
    cases hp : portBusno device with
    | none =>
      have hm : ls2kBusno 0 device n = n + 1 := by simp [ls2kBusno, hp]
      refine ihr hrest _ lo _ (List.mem_append_left _ h0) (fun m hlom hmn => ?_) hhi
        (fun s hs => hports s (List.mem_cons_of_mem _ hs)) hnd
      rcases Nat.lt_or_ge n m with hlt | hge
      · exact List.mem_append_right _ (List.mem_range'_1.mpr (by omega))
      · exact List.mem_append_left _ (hused m hlom hge)
    | some f =>
      have hm : ls2kBusno 0 device n = f := by simp [ls2kBusno, hp]
      refine ihr hrest _ f _ (List.mem_append_left _ h0) (fun m hlom hmn => ?_) hhi
        (fun s hs f' hf' => ?_) hnd
      · exact List.mem_append_right _ (List.mem_range'_1.mpr (by omega))
      · have hdev : device ≤ s.1 := by
          rcases hbefore s hs with hlt | ⟨heq, -⟩
          · exact Nat.le_of_lt hlt
          · exact Nat.le_of_eq heq
        exact portBusno_mono hp hf' hdev

/-- **The bus numbers of a scan.**  For a topology that fits in 255 buses the default numbers are
    right, and those of the LS2K are right exactly when every bridge on the root bus gets a number
    above those given before it and the numbers end at 255. -/
theorem busNumbers_exact {α : Type} (t : Topology α) (hfit : t.root.bridges ≤ 255) :
    Numbered (t.scan defaultBusno) ∧
      (Numbered (t.scan ls2kBusno) ↔ t.root.Fits ls2kBusno 0) := by
  have hright : ∀ getBusno : GetBusno, NextOffRoot getBusno → t.root.Fits getBusno 0 →
      Numbered (t.scan getBusno) := by
    intro getBusno hg hf
    apply (topology_walk hg t).numbered
    have := secNums_topology getBusno t
    rw [Topology.scan] at this
    rw [this]
    exact increasing_of_fits hg t.root hf
  refine ⟨hright _ nextOffRoot_default (fits_default t.root (by omega)), fun h => ?_,
    hright _ nextOffRoot_ls2k⟩
  refine fits_of_nodup t.root t.ordered 0 0 [0] (by simp) (fun m _ hm => ?_)
    (by omega) (fun _ _ _ _ => Nat.zero_le _) ?_
  · simp; omega
  · have := h.different
    rwa [secNums_topology] at this

/-! ## §5 Two root ports -/

/-- Port 9 with a switch that has two ports, and port 10. -/
def switchTopology : Topology Unit where
  root := .bridge 9 0 0#32
    (.bridge 0 0 0#32 (.bridge 0 0 0#32 .none (.bridge 1 0 0#32 .none .none)) .none)
    (.bridge 10 0 0#32 .none .none)
  ordered := by simp [Bus.Ordered, Bus.slots, Bus.Before]

/-- Both the second port of the switch and port 10 get number 4. -/
theorem switch_same_number :
    switchTopology.root.bridges ≤ 255 ∧ ¬ Numbered (switchTopology.scan ls2kBusno) :=
  ⟨by decide, fun h => absurd h.different (by decide)⟩

theorem busNumbers_exact_switch :
    Numbered (switchTopology.scan defaultBusno) ∧
      (Numbered (switchTopology.scan ls2kBusno) ↔ switchTopology.root.Fits ls2kBusno 0) :=
  busNumbers_exact switchTopology (by decide)

end Pmon.Pci
