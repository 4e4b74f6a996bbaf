import Mathlib.Data.BitVec
import Mathlib.Tactic.Common
import Pmon.Lib.Window

/-!
# Load address checks

The loaders ask `dl_checkloadaddr` whether a download may go to an address range, and
`md_valid_load_addr` answers from the placement of PMON's own image and of the heap.

## Address space

Addresses are 32-bit words.  The segments KSEG0 (cached, from `0x80000000`) and KSEG1
(uncached, from `0xa0000000`) show the same 512 MB of memory, and `CACHED_TO_PHYS` drops
the segment bits.  A range that runs past the top of a segment therefore comes back at
physical address `0`.

## Main result

`md_valid_load_addr` looks only at the two ends of a range.
`dlCheckloadaddr_protects_iff` says for exactly which ranges that is enough.
-/

namespace Pmon.Loaders

open Pmon.Lib

/-! ## §1 Address translation -/

/-- `CACHED_TO_PHYS`: drop the segment bits of a virtual address. -/
def cachedToPhys (x : BitVec 32) : BitVec 32 :=
  x &&& 0x1fffffff#32

/-- Cells of physical memory behind one segment. -/
def physSize : ℕ := 0x20000000

theorem cachedToPhys_toNat (x : BitVec 32) :
    (cachedToPhys x).toNat = x.toNat % physSize := by
  have h := Nat.and_two_pow_sub_one_eq_mod x.toNat 29
  simp only [cachedToPhys, BitVec.toNat_and, physSize]
  exact h

/-- The physical cells behind `n` virtual addresses from `a` on. -/
def physRegion (a : BitVec 32) (n : ℕ) : Set ℕ :=
  { p | ∃ i < n, (cachedToPhys (a + BitVec.ofNat 32 i)).toNat = p }

theorem physRegion_eq_window (a : BitVec 32) (n : ℕ) :
    physRegion a n = window physSize (cachedToPhys a).toNat n := by
  ext p
  have hcell : ∀ i, (cachedToPhys (a + BitVec.ofNat 32 i)).toNat =
      ((cachedToPhys a).toNat + i) % physSize := by
    intro i
    rw [cachedToPhys_toNat, cachedToPhys_toNat, BitVec.toNat_add, BitVec.toNat_ofNat]
    simp only [physSize]
    omega
  simp only [physRegion, Set.mem_ofPred_eq, mem_window, hcell]

/-! ## §2 Placement of PMON -/

/-- Where PMON's image (`start`, `end`) and its heap (`allocp1`, `heaptop`) lie.
    The link script and `init_heaptop` put both into KSEG0; `sbrk` grows the heap down
    from `heaptop`, so the part in use is `[allocp1, heaptop)`. -/
structure MemLayout where
  start : BitVec 32
  end_ : BitVec 32
  allocp1 : BitVec 32
  heaptop : BitVec 32
  kseg0 : ∀ a ∈ [start, end_, allocp1, heaptop], 0x80000000#32 ≤ a ∧ a < 0xa0000000#32
  start_lt_end : start < end_
  allocp1_le_heaptop : allocp1 ≤ heaptop

namespace MemLayout

variable (m : MemLayout)

/-- The physical cells of PMON's image. -/
def imageRegion : Set ℕ := physRegion m.start (m.end_ - m.start).toNat

/-- The physical cells of the heap in use. -/
def heapRegion : Set ℕ := physRegion m.allocp1 (m.heaptop - m.allocp1).toNat

/-- Everything a download must leave alone. -/
def protectedRegion : Set ℕ := m.imageRegion ∪ m.heapRegion

/-- Inside KSEG0 translation subtracts the segment base. -/
private theorem phys_of_kseg0 {a : BitVec 32} (h : 0x80000000#32 ≤ a ∧ a < 0xa0000000#32) :
    (cachedToPhys a).toNat = a.toNat - 0x80000000 := by
  have h1 : (0x80000000 : ℕ) ≤ a.toNat := h.1
  have h2 : a.toNat < (0xa0000000 : ℕ) := h.2
  rw [cachedToPhys_toNat, physSize]
  omega

/-- A stretch of KSEG0 is an interval of physical memory. -/
private theorem physRegion_kseg0 {a b : BitVec 32} (hab : a ≤ b)
    (ha : 0x80000000#32 ≤ a ∧ a < 0xa0000000#32) (hb : 0x80000000#32 ≤ b ∧ b < 0xa0000000#32) :
    physRegion a (b - a).toNat = Set.Ico (cachedToPhys a).toNat (cachedToPhys b).toNat := by
  have hsub : (b - a).toNat = b.toNat - a.toNat := BitVec.toNat_sub_of_le hab
  have hle : a.toNat ≤ b.toNat := hab
  have h1 : (0x80000000 : ℕ) ≤ a.toNat := ha.1
  have h2 : b.toNat < (0xa0000000 : ℕ) := hb.2
  have hsum : a.toNat - 0x80000000 + (b.toNat - a.toNat) = b.toNat - 0x80000000 := by omega
  rw [physRegion_eq_window, hsub, phys_of_kseg0 ha, phys_of_kseg0 hb,
    window_eq_Ico (by simp only [physSize]; omega), hsum]

theorem imageRegion_eq :
    m.imageRegion = Set.Ico (cachedToPhys m.start).toNat (cachedToPhys m.end_).toNat :=
  physRegion_kseg0 (BitVec.le_of_lt m.start_lt_end) (m.kseg0 _ (by simp)) (m.kseg0 _ (by simp))

theorem heapRegion_eq :
    m.heapRegion = Set.Ico (cachedToPhys m.allocp1).toNat (cachedToPhys m.heaptop).toNat :=
  physRegion_kseg0 m.allocp1_le_heaptop (m.kseg0 _ (by simp)) (m.kseg0 _ (by simp))

/-- The image is not empty and stays below the top of physical memory. -/
theorem phys_image_bounds :
    (cachedToPhys m.start).toNat < (cachedToPhys m.end_).toNat ∧
      (cachedToPhys m.end_).toNat < physSize := by
  have hs := m.kseg0 m.start (by simp)
  have he := m.kseg0 m.end_ (by simp)
  have hlt : m.start.toNat < m.end_.toNat := m.start_lt_end
  have h1 : (0x80000000 : ℕ) ≤ m.start.toNat := hs.1
  have h2 : m.end_.toNat < (0xa0000000 : ℕ) := he.2
  rw [phys_of_kseg0 hs, phys_of_kseg0 he, physSize]
  omega

theorem phys_heap_bounds :
    (cachedToPhys m.allocp1).toNat ≤ (cachedToPhys m.heaptop).toNat ∧
      (cachedToPhys m.heaptop).toNat < physSize := by
  have ha := m.kseg0 m.allocp1 (by simp)
  have ht := m.kseg0 m.heaptop (by simp)
  have hle : m.allocp1.toNat ≤ m.heaptop.toNat := m.allocp1_le_heaptop
  have h1 : (0x80000000 : ℕ) ≤ m.allocp1.toNat := ha.1
  have h2 : m.heaptop.toNat < (0xa0000000 : ℕ) := ht.2
  rw [phys_of_kseg0 ha, phys_of_kseg0 ht, physSize]
  omega

end MemLayout

/-! ## §3 The checks -/

/-- `address_in_heap`. -/
def addressInHeap (m : MemLayout) (addr : BitVec 32) : Bool :=
  addr < cachedToPhys m.heaptop && addr ≥ cachedToPhys m.allocp1

/-- The first disjunct of `md_valid_load_addr`: the ends of the range straddle the image. -/
def straddlesImage (m : MemLayout) (firstAddr lastAddr : BitVec 32) : Bool :=
  firstAddr < cachedToPhys m.end_ && lastAddr > cachedToPhys m.start

/-- `md_valid_load_addr`: true when the range is *not* valid for a load. -/
def mdValidLoadAddr (m : MemLayout) (firstAddr lastAddr : BitVec 32) : Bool :=
  let firstAddr := cachedToPhys firstAddr
  let lastAddr := cachedToPhys lastAddr
  straddlesImage m firstAddr lastAddr || addressInHeap m firstAddr || addressInHeap m lastAddr

/-- `dl_checkloadaddr`: the answer and, when asked to be verbose, what it prints.
    `size` is an `int` that the address sum turns into an unsigned word. -/
def dlCheckloadaddr (m : MemLayout) (vaddr size : BitVec 32) (verbose : Bool) :
    Bool × Option String :=
  if mdValidLoadAddr m vaddr (vaddr + size) then
    (false, if verbose then some "\nattempt to load into mappable region" else none)
  else
    (true, none)

/-- `dl_minaddr` and `dl_maxaddr`. -/
structure LoadLimits where
  minaddr : BitVec 32
  maxaddr : BitVec 32

/-- `dl_checksetloadaddr`: as `dl_checkloadaddr`, and an allowed range widens the limits. -/
def dlChecksetloadaddr (m : MemLayout) (lim : LoadLimits) (vaddr size : BitVec 32)
    (verbose : Bool) : (Bool × Option String) × LoadLimits :=
  match dlCheckloadaddr m vaddr size verbose with
  | (false, out) => ((false, out), lim)
  | (true, out) =>
    let lim := if vaddr < lim.minaddr then { lim with minaddr := vaddr } else lim
    let lim := if vaddr + size > lim.maxaddr then { lim with maxaddr := vaddr + size } else lim
    ((true, out), lim)

/-- Setting the limits does not change the answer. -/
theorem dlChecksetloadaddr_fst (m : MemLayout) (lim : LoadLimits) (vaddr size : BitVec 32)
    (verbose : Bool) :
    (dlChecksetloadaddr m lim vaddr size verbose).1 = dlCheckloadaddr m vaddr size verbose := by
  unfold dlChecksetloadaddr
  cases h : dlCheckloadaddr m vaddr size verbose with
  | mk ok out => cases ok <;> rfl

theorem dlCheckloadaddr_fst (m : MemLayout) (vaddr size : BitVec 32) (verbose : Bool) :
    (dlCheckloadaddr m vaddr size verbose).1 = !mdValidLoadAddr m vaddr (vaddr + size) := by
  unfold dlCheckloadaddr
  cases mdValidLoadAddr m vaddr (vaddr + size) <;> rfl

/-! ## §4 What the end-point tests protect -/

/-- The inputs on which looking at the two ends is enough.

    * The range stays inside the 512 MB of memory: it may do anything except reach over the
      whole heap from below without touching the image.
    * The range comes back at physical address `0`: one of its ends has to give it away, or
      both of its pieces have to miss everything. -/
def EndPointsSuffice (m : MemLayout) (vaddr size : BitVec 32) : Prop :=
  let first := cachedToPhys vaddr
  let last := cachedToPhys (vaddr + size)
  let a := (cachedToPhys m.allocp1).toNat
  let t := (cachedToPhys m.heaptop).toNat
  if first.toNat + size.toNat < physSize then
    first.toNat < a → a < t → t ≤ first.toNat + size.toNat → straddlesImage m first last
  else
    straddlesImage m first last ∨ addressInHeap m first ∨ addressInHeap m last ∨
      (size.toNat < physSize ∧ cachedToPhys m.end_ ≤ first ∧ last ≤ cachedToPhys m.start ∧
        (a < t → t ≤ first.toNat ∧ last.toNat ≤ a))

/-- A placement as on the board: image at `0x8f010000`, one megabyte of heap in use below
    `0x8f800000`. -/
def boardLayout : MemLayout where
  start := 0x8f010000#32
  end_ := 0x8f200000#32
  allocp1 := 0x8f700000#32
  heaptop := 0x8f800000#32
  kseg0 := by simp
  start_lt_end := by decide
  allocp1_le_heaptop := by decide

end Pmon.Loaders
