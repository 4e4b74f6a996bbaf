import Pmon.Fs.Extents
import Mathlib.Data.List.TakeWhile

/-!
# Extent trees

What a tree of extents says about a file: a leaf has the extents of a range of blocks, and a sorted
tree splits all blocks into such ranges.

## Key results

- `getExtentNode_denotes`: the code finds the leaf of a block, where the block has one.
- `Denotes.lookup_eq`: a block is mapped as the leaf that has it says.
-/

namespace Pmon.Fs.Ext2

open Pmon.Lib

/-! ## §1 Extents -/

/-- `struct ext4_extent`; a length above 32768 is that of an unwritten extent. -/
structure Extent where
  block : ℕ
  len : ℕ
  start : ℕ
  deriving DecidableEq

def Extent.unwritten (e : Extent) : Prop := 32768 < e.len

instance (e : Extent) : Decidable e.unwritten := inferInstanceAs (Decidable (_ < _))

/-- The blocks that an extent has. -/
def Extent.size (e : Extent) : ℕ := if e.unwritten then e.len - 32768 else e.len

def Extent.covers (e : Extent) (b : ℕ) : Prop := e.block ≤ b ∧ b < e.block + e.size

instance (e : Extent) (b : ℕ) : Decidable (e.covers b) := inferInstanceAs (Decidable (_ ∧ _))

/-- Where a block of the file is, or nothing for a hole and for an unwritten extent. -/
def lookup (es : List Extent) (b : ℕ) : Option ℕ :=
  match es.find? fun e => decide (e.covers b) with
  | none => none
  | some e => if e.unwritten then none else some (e.start + (b - e.block))

/-- Extents in order, one behind the other. -/
def InOrder (es : List Extent) : Prop := es.Pairwise fun e f => e.block + e.size ≤ f.block

variable {es : List Extent} {e : Extent} {b : ℕ}

theorem find?_covers (hes : InOrder es) (he : e ∈ es) (hcovers : e.covers b) :
    es.find? (fun e => decide (e.covers b)) = some e := by
  induction es with
  | nil => exact absurd he List.not_mem_nil
  | cons f es ih =>
    obtain ⟨hf, hes⟩ := List.pairwise_cons.mp hes
    rcases List.mem_cons.mp he with rfl | hmem
    · simp only [List.find?_cons, hcovers, decide_true]
    · have hbehind := hf e hmem
      have hnot : ¬f.covers b := fun h => by
        have hlt := h.2
        have hle := hcovers.1
        omega
      simp only [List.find?_cons, hnot, decide_false]
      exact ih hes hmem

theorem lookup_of_covers (hes : InOrder es) (he : e ∈ es) (hcovers : e.covers b) :
    lookup es b = if e.unwritten then none else some (e.start + (b - e.block)) := by
  rw [lookup, find?_covers hes he hcovers]

theorem lookup_of_not_covers (h : ∀ e ∈ es, ¬e.covers b) : lookup es b = none := by
  rw [lookup, List.find?_eq_none.mpr]
  intro e he
  rw [decide_eq_true_eq]
  exact h e he

/-! ## §2 Leaves -/

/-- A leaf: the range of blocks it is for, and its extents. -/
structure Leaf where
  lo : ℕ
  hi : ℕ
  extents : List Extent

def Leaf.holds (l : Leaf) (b : ℕ) : Prop := l.lo ≤ b ∧ b < l.hi

/-- The extents of a leaf are in order and in its range. -/
structure Leaf.Valid (l : Leaf) : Prop where
  inOrder : InOrder l.extents
  pos : ∀ e ∈ l.extents, 0 < e.size
  lo_le : ∀ e ∈ l.extents, l.lo ≤ e.block
  le_hi : ∀ e ∈ l.extents, e.block + e.size ≤ l.hi

/-- The extents of a leaf as a node has them. -/
structure StoresLeaf (node : Mem) (es : List Extent) : Prop where
  magic : ehMagic node = extMagic
  entries : ehEntries node = es.length
  depth : ehDepth node = 0
  extent : ∀ i (h : i < es.length), eeBlock node i = es[i].block ∧ eeLen node i = es[i].len ∧
    eeStart node i = es[i].start

/-! ## §3 Trees -/

/-- The key behind the `i`-th of some entries. -/
def nextKey (kids : List (ℕ × List Leaf)) (hi i : ℕ) : ℕ := (kids[i + 1]?.map Prod.fst).getD hi

/-- A node is the root of a sorted tree of a depth for the blocks from `lo` to `hi`, with these
    leaves. -/
def Denotes (sb : Super) (dev : Device) : ℕ → ℕ → ℕ → Mem → List Leaf → Prop
  | 0, lo, hi, node, leaves =>
    ∃ es, StoresLeaf node es ∧ Leaf.Valid ⟨lo, hi, es⟩ ∧ leaves = [⟨lo, hi, es⟩]
  | d + 1, lo, hi, node, leaves =>
    ehMagic node = extMagic ∧ ehDepth node = d + 1 ∧
      ∃ kids : List (ℕ × List Leaf), ehEntries node = kids.length ∧
        kids.Pairwise (fun k k' => k.1 < k'.1) ∧ leaves = kids.flatMap Prod.snd ∧
        ∀ i (h : i < kids.length), eiBlock node i = kids[i].1 ∧ lo ≤ kids[i].1 ∧ kids[i].1 ≤ hi ∧
          ∃ child, readNode sb dev (eiLeaf node i) = some child ∧
            Denotes sb dev d kids[i].1 (nextKey kids hi i) child kids[i].2

variable {sb : Super} {dev : Device} {d lo hi : ℕ} {node : Mem} {leaves : List Leaf} {l : Leaf}
  {kids : List (ℕ × List Leaf)} {i j n : ℕ}

theorem key_le_nextKey (hkids : kids.Pairwise fun k k' => k.1 < k'.1) (hi' : j < kids.length)
    (h : i < j) : nextKey kids hi i ≤ kids[j].1 := by
  have hnext : i + 1 < kids.length := by omega
  rw [nextKey, List.getElem?_eq_getElem hnext, Option.map_some, Option.getD_some]
  rcases Nat.lt_or_ge (i + 1) j with hlt | hge
  · exact Nat.le_of_lt (List.pairwise_iff_getElem.mp hkids (i + 1) j hnext hi' hlt)
  · obtain rfl : i + 1 = j := by omega
    exact Nat.le_refl _

theorem nextKey_le (hkeys : ∀ i (h : i < kids.length), kids[i].1 ≤ hi) :
    nextKey kids hi i ≤ hi := by
  rw [nextKey]
  rcases Nat.lt_or_ge (i + 1) kids.length with hlt | hge
  · rw [List.getElem?_eq_getElem hlt]
    exact hkeys (i + 1) hlt
  · rw [List.getElem?_eq_none hge]
    exact Nat.le_refl _

/-- The leaves of a tree are in its range. -/
theorem Denotes.range (h : Denotes sb dev d lo hi node leaves) (hl : l ∈ leaves) :
    lo ≤ l.lo ∧ l.hi ≤ hi ∧ l.Valid := by
  induction d generalizing lo hi node leaves with
  | zero =>
    obtain ⟨es, -, hvalid, rfl⟩ := h
    obtain rfl := List.mem_singleton.mp hl
    exact ⟨Nat.le_refl _, Nat.le_refl _, hvalid⟩
  | succ d ih =>
    obtain ⟨-, -, kids, -, -, rfl, hkids⟩ := h
    obtain ⟨k, hk, hlk⟩ := List.mem_flatMap.mp hl
    obtain ⟨i, hi', rfl⟩ := List.mem_iff_getElem.mp hk
    obtain ⟨-, hlo, -, child, -, hchild⟩ := hkids i hi'
    obtain ⟨hlo', hhi', hvalid⟩ := ih hchild hlk
    have hnext := nextKey_le (i := i) fun j hj => (hkids j hj).2.2.1
    exact ⟨by omega, by omega, hvalid⟩

theorem Denotes.pairwise (h : Denotes sb dev d lo hi node leaves) :
    leaves.Pairwise fun l l' => l.hi ≤ l'.lo := by
  induction d generalizing lo hi node leaves with
  | zero =>
    obtain ⟨es, -, -, rfl⟩ := h
    exact List.pairwise_singleton _ _
  | succ d ih =>
    obtain ⟨-, -, kids, -, hsorted, rfl, hkids⟩ := h
    rw [List.pairwise_flatMap]
    constructor
    · intro k hk
      obtain ⟨i, hi', rfl⟩ := List.mem_iff_getElem.mp hk
      obtain ⟨-, -, -, child, -, hchild⟩ := hkids i hi'
      exact ih hchild
    · rw [List.pairwise_iff_getElem]
      intro i j hi' hj hij l hl l' hl'
      obtain ⟨-, -, -, child, -, hchild⟩ := hkids i hi'
      obtain ⟨-, -, -, child', -, hchild'⟩ := hkids j hj
      exact Nat.le_trans (hchild.range hl).2.1
        (Nat.le_trans (key_le_nextKey hsorted hj hij) (hchild'.range hl').1)

/-- A block is one of at most one leaf. -/
theorem Denotes.holds_unique (h : Denotes sb dev d lo hi node leaves) {l' : Leaf} (hl : l ∈ leaves)
    (hl' : l' ∈ leaves) (hb : l.holds b) (hb' : l'.holds b) : l = l' := by
  obtain ⟨i, hi', rfl⟩ := List.mem_iff_getElem.mp hl
  obtain ⟨j, hj, rfl⟩ := List.mem_iff_getElem.mp hl'
  have hpairs := List.pairwise_iff_getElem.mp h.pairwise
  obtain ⟨hlo, hhi⟩ := hb
  obtain ⟨hlo', hhi''⟩ := hb'
  rcases Nat.lt_trichotomy i j with hlt | rfl | hgt
  · have hle := hpairs i j hi' hj hlt
    omega
  · rfl
  · have hle := hpairs j i hj hi' hgt
    omega

/-- All extents of a tree. -/
def allExtents (leaves : List Leaf) : List Extent := leaves.flatMap Leaf.extents

theorem Denotes.inOrder (h : Denotes sb dev d lo hi node leaves) : InOrder (allExtents leaves) := by
  rw [InOrder, allExtents, List.pairwise_flatMap]
  refine ⟨fun l hl => (h.range hl).2.2.inOrder, ?_⟩
  refine h.pairwise.imp_of_mem fun hl hl' hle e he f hf => ?_
  have hend := (h.range hl).2.2.le_hi e he
  have hstart := (h.range hl').2.2.lo_le f hf
  omega

/-- An extent that covers a block is one of the block's leaf. -/
theorem Denotes.mem_of_covers (h : Denotes sb dev d lo hi node leaves) (hl : l ∈ leaves)
    (hb : l.holds b) (he : e ∈ allExtents leaves) (hcovers : e.covers b) : e ∈ l.extents := by
  obtain ⟨l', hl', hel'⟩ := List.mem_flatMap.mp he
  obtain ⟨-, -, hvalid⟩ := h.range hl'
  have hlo := hvalid.lo_le e hel'
  have hhi := hvalid.le_hi e hel'
  obtain ⟨hstart, hend⟩ := hcovers
  have hb' : l'.holds b := ⟨by omega, by omega⟩
  rwa [h.holds_unique hl hl' hb hb']

/-! ## §4 Finding a leaf -/

/-- The loop over the entries stops behind the keys that are not above the block. -/
theorem scan_spec (key : ℕ → ℕ) (b n i next : ℕ) :
    i ≤ (scan key b n i next).1 ∧ (scan key b n i next).1 ≤ i + n ∧
      (∀ j, i ≤ j → j < (scan key b n i next).1 → key j ≤ b) ∧
      ((scan key b n i next).1 < i + n → b < key (scan key b n i next).1) := by
  induction n generalizing i next with
  | zero => exact ⟨Nat.le_refl _, Nat.le_refl _, fun j hlo hhi => absurd hhi (by rw [scan]; omega),
      fun h => absurd h (Nat.lt_irrefl _)⟩
  | succ n ih =>
    rw [scan]
    split
    · rename_i hle
      obtain ⟨hlo, hhi, hkeys, hstop⟩ := ih (i + 1) (key i)
      refine ⟨by omega, by omega, fun j hj hjlt => ?_, fun h => hstop (by omega)⟩
      rcases Nat.eq_or_lt_of_le hj with rfl | hlt
      · exact hle
      · exact hkeys j hlt hjlt
    · rename_i hgt
      exact ⟨Nat.le_refl _, Nat.le_add_right _ _, fun j hlo hhi => absurd hhi (by omega),
        fun _ => Nat.lt_of_not_le hgt⟩

/-- The loop over the entries of a sorted node stops behind the child that a block is of. -/
theorem scan_kids {key : ℕ → ℕ} (hsorted : kids.Pairwise fun k k' => k.1 < k'.1)
    (hkeys : ∀ i (h : i < kids.length), key i = kids[i].1) (hi' : i < kids.length)
    (hle : kids[i].1 ≤ b) (hlt : b < nextKey kids hi i) (next : ℕ) :
    (scan key b kids.length 0 next).1 = i + 1 := by
  obtain ⟨-, hend, hbefore, hstop⟩ := scan_spec key b kids.length 0 next
  rw [Nat.zero_add] at hend hstop
  generalize (scan key b kids.length 0 next).1 = r at hend hbefore hstop
  rcases Nat.lt_trichotomy r (i + 1) with hless | heq | hmore
  · have hr : r < kids.length := by omega
    have habove := hstop hr
    rw [hkeys r hr] at habove
    rcases Nat.eq_or_lt_of_le (Nat.lt_succ_iff.mp hless) with rfl | hri
    · omega
    · have hkey := List.pairwise_iff_getElem.mp hsorted r i hr hi' hri
      omega
  · exact heq
  · have hnext : i + 1 < kids.length := by omega
    have hbelow := hbefore (i + 1) (by omega) hmore
    rw [hkeys (i + 1) hnext] at hbelow
    rw [nextKey, List.getElem?_eq_getElem hnext] at hlt
    exact absurd hlt (Nat.not_lt.mpr hbelow)

/-- The leaf of a block is found, and where there is none nothing is. -/
theorem getExtentNode_denotes (h : Denotes sb dev d lo hi node leaves) {fuel : ℕ} (hfuel : d < fuel)
    (hhi : b < hi) :
    (∀ l ∈ leaves, l.holds b →
      ∃ leaf, getExtentNode sb dev fuel node b = some leaf ∧ StoresLeaf leaf l.extents) ∧
    ((∀ l ∈ leaves, ¬l.holds b) → lo ≤ b → getExtentNode sb dev fuel node b = none) := by
  induction d generalizing lo hi node leaves fuel with
  | zero =>
    obtain ⟨es, hstores, -, rfl⟩ := h
    obtain ⟨fuel, rfl⟩ : ∃ f, fuel = f + 1 := ⟨fuel - 1, by omega⟩
    constructor
    · intro l hl _
      obtain rfl := List.mem_singleton.mp hl
      rw [getExtentNode, if_neg (not_not.mpr hstores.magic), if_pos hstores.depth]
      exact ⟨node, rfl, hstores⟩
    · intro hno hlo
      exact absurd ⟨hlo, hhi⟩ (hno _ (List.mem_singleton.mpr rfl))
  | succ d ih =>
    obtain ⟨hmagic, hdepth, kids, hentries, hsorted, rfl, hkids⟩ := h
    obtain ⟨fuel, rfl⟩ : ∃ f, fuel = f + 1 := ⟨fuel - 1, by omega⟩
    have hkeys : ∀ i (h : i < kids.length), eiBlock node i = kids[i].1 :=
      fun i h => (hkids i h).1
    rw [getExtentNode, if_neg (not_not.mpr hmagic), if_neg (by omega), hentries]
    constructor
    · intro l hl hb
      obtain ⟨k, hk, hlk⟩ := List.mem_flatMap.mp hl
      obtain ⟨i, hi', rfl⟩ := List.mem_iff_getElem.mp hk
      obtain ⟨-, -, -, child, hread, hchild⟩ := hkids i hi'
      obtain ⟨hrange, hrange', -⟩ := hchild.range hlk
      obtain ⟨hstart, hend⟩ := hb
      have hnext : b < nextKey kids hi i := by omega
      rw [scan_kids hsorted hkeys hi' (by omega) hnext]
      dsimp only
      rw [hread]
      exact (ih hchild (by omega) (by omega)).1 l hlk ⟨hstart, hend⟩
    · intro hno hlo
      obtain ⟨-, hend, hbefore, hstop⟩ := scan_spec (eiBlock node) b kids.length 0 0
      rw [Nat.zero_add] at hend hstop
      generalize (scan (eiBlock node) b kids.length 0 0).1 = r at hend hbefore hstop
      cases r with
      | zero => rfl
      | succ i =>
        have hi' : i < kids.length := by omega
        obtain ⟨hkey, -, -, child, hread, hchild⟩ := hkids i hi'
        have hle := hbefore i (Nat.zero_le _) (Nat.lt_succ_self _)
        have hlt : b < nextKey kids hi i := by
          rw [nextKey]
          rcases Nat.lt_or_ge (i + 1) kids.length with hmore | hlast
          · rw [List.getElem?_eq_getElem hmore, Option.map_some, Option.getD_some,
              ← hkeys (i + 1) hmore]
            exact hstop hmore
          · rw [List.getElem?_eq_none hlast]
            exact hhi
        dsimp only
        rw [hread]
        refine (ih hchild (by omega) hlt).2 (fun l hl => hno l ?_) (by omega)
        exact List.mem_flatMap.mpr ⟨kids[i], List.getElem_mem hi', hl⟩

/-! ## §5 Blocks of a leaf -/

/-- The extents that start at or in front of a block. -/
def Leaf.behind (l : Leaf) (b : ℕ) : List Extent :=
  l.extents.takeWhile fun e => decide (e.block ≤ b)

/-- The extents that start behind a block. -/
def Leaf.ahead (l : Leaf) (b : ℕ) : List Extent :=
  l.extents.dropWhile fun e => decide (e.block ≤ b)

theorem Leaf.behind_append_ahead (l : Leaf) (b : ℕ) : l.behind b ++ l.ahead b = l.extents :=
  List.takeWhile_append_dropWhile

theorem Leaf.block_le_of_mem_behind (he : e ∈ l.behind b) : e.block ≤ b := by
  have hmem := List.mem_takeWhile_imp he
  rwa [decide_eq_true_eq] at hmem

theorem Leaf.Valid.lt_of_mem_ahead (h : l.Valid) (he : e ∈ l.ahead b) : b < e.block := by
  rcases hahead : l.ahead b with _ | ⟨f, rest⟩
  · rw [hahead] at he
    exact absurd he List.not_mem_nil
  · have hf : b < f.block := by
      have hhead := List.head?_dropWhile_not (fun e : Extent => decide (e.block ≤ b)) l.extents
      rw [← Leaf.ahead, hahead] at hhead
      simpa using hhead
    have hpairs := h.inOrder
    rw [InOrder, ← l.behind_append_ahead b, hahead] at hpairs
    rw [hahead] at he
    rcases List.mem_cons.mp he with rfl | hmem
    · exact hf
    · have hbehind := List.rel_of_pairwise_cons (List.pairwise_append.mp hpairs).2.1 hmem
      omega

/-- The extents in front of the last one behind a block do not cover it. -/
theorem Leaf.Valid.end_le_of_mem_behind (h : l.Valid) {f : Extent}
    (he : (l.behind b).getLast? = some e) (hf : f ∈ l.behind b) :
    f = e ∨ f.block + f.size ≤ e.block := by
  obtain ⟨init, hinit⟩ := List.getLast?_eq_some_iff.mp he
  have hpairs := h.inOrder
  rw [InOrder, ← l.behind_append_ahead b, hinit] at hpairs
  rw [hinit] at hf
  rcases List.mem_append.mp hf with hmem | hmem
  · exact Or.inr ((List.pairwise_append.mp (List.pairwise_append.mp hpairs).1).2.2 f hmem e
      (List.mem_singleton.mpr rfl))
  · exact Or.inl (List.mem_singleton.mp hmem)

/-- **A block is mapped as its leaf says**: by the last extent behind it, if this covers it. -/
theorem Denotes.lookup_eq (h : Denotes sb dev d lo hi node leaves) (hl : l ∈ leaves)
    (hb : l.holds b) :
    lookup (allExtents leaves) b =
      match (l.behind b).getLast? with
      | none => none
      | some e =>
        if b < e.block + e.size ∧ ¬e.unwritten then some (e.start + (b - e.block)) else none := by
  have hvalid := (h.range hl).2.2
  have hcover : ∀ f ∈ allExtents leaves, f.covers b → f ∈ l.behind b := by
    intro f hf hcovers
    have hmem := h.mem_of_covers hl hb hf hcovers
    rw [← l.behind_append_ahead b] at hmem
    rcases List.mem_append.mp hmem with hbehind | hahead
    · exact hbehind
    · have hlt := hvalid.lt_of_mem_ahead hahead
      have hle := hcovers.1
      omega
  rcases hlast : (l.behind b).getLast? with _ | e
  · refine lookup_of_not_covers fun f hf hcovers => ?_
    have hmem := hcover f hf hcovers
    rw [List.getLast?_eq_none_iff.mp hlast] at hmem
    exact absurd hmem List.not_mem_nil
  · have hmem : e ∈ l.behind b := List.mem_of_getLast? hlast
    have hle := Leaf.block_le_of_mem_behind hmem
    have hall : e ∈ allExtents leaves := by
      refine List.mem_flatMap.mpr ⟨l, hl, ?_⟩
      rw [← l.behind_append_ahead b]
      exact List.mem_append_left _ hmem
    dsimp only
    by_cases hcovers : b < e.block + e.size
    · rw [lookup_of_covers h.inOrder hall ⟨hle, hcovers⟩]
      by_cases hunwritten : e.unwritten
      · rw [if_pos hunwritten, if_neg fun hboth => hboth.2 hunwritten]
      · rw [if_neg hunwritten, if_pos ⟨hcovers, hunwritten⟩]
    · rw [if_neg fun hboth => hcovers hboth.1]
      refine lookup_of_not_covers fun f hf hfcovers => ?_
      rcases hvalid.end_le_of_mem_behind hlast (hcover f hf hfcovers) with rfl | hend
      · exact hcovers hfcovers.2
      · have hlt := hfcovers.2
        omega

/-! ## §6 What the code makes of a block -/

/-- The loop over the extents of a leaf. -/
theorem scan_extents (key : ℕ → ℕ) (b : ℕ) (es : List Extent) (i next : ℕ)
    (hkey : ∀ j (h : j < es.length), key (i + j) = es[j].block) :
    scan key b es.length i next =
      (i + (es.takeWhile fun e => decide (e.block ≤ b)).length,
        ((es.dropWhile fun e => decide (e.block ≤ b)).head?.map Extent.block).getD
          (((es.takeWhile fun e => decide (e.block ≤ b)).getLast?.map Extent.block).getD
            next)) := by
  induction es generalizing i next with
  | nil => rfl
  | cons e es ih =>
    have hfirst : key i = e.block := hkey 0 (Nat.zero_lt_succ _)
    rw [List.length_cons, scan, hfirst]
    by_cases hle : e.block ≤ b
    · rw [if_pos hle, ih (i + 1) e.block fun j hj => ?_]
      · rw [List.takeWhile_cons_of_pos (by rw [decide_eq_true_eq]; exact hle),
          List.dropWhile_cons_of_pos (by rw [decide_eq_true_eq]; exact hle), List.length_cons,
          List.getLast?_cons, Nat.add_assoc, Nat.add_comm 1]
        cases (es.takeWhile fun e => decide (e.block ≤ b)).getLast? <;> rfl
      · have hrest := hkey (j + 1) (Nat.succ_lt_succ hj)
        rw [List.getElem_cons_succ] at hrest
        rw [← hrest]
        congr 1
        omega
    · rw [if_neg hle, List.takeWhile_cons_of_neg (by rw [decide_eq_true_eq]; exact hle),
        List.dropWhile_cons_of_neg (by rw [decide_eq_true_eq]; exact hle)]
      rfl

/-- The key that the loop over the extents of a leaf looked at last. -/
def Leaf.lastKey (l : Leaf) (b next : ℕ) : ℕ :=
  ((l.ahead b).head?.map Extent.block).getD (((l.behind b).getLast?.map Extent.block).getD next)

/-- What `read_extent_block` makes of a block of a leaf. -/
theorem readExtentBlock_eq (h : Denotes sb dev d lo hi node leaves) {fuel : ℕ} (hfuel : d < fuel)
    (hl : l ∈ leaves) (hb : l.holds b) :
    readExtentBlock sb dev fuel node b =
      match (l.behind b).getLast? with
      | none => (.hole, u32 (l.lastKey b (u32 (b + 1)) - b))
      | some e =>
        if e.len ≤ b - e.block then
          (.hole, u32 (l.lastKey b (u32 (b + 1)) - (b - e.block : ℕ) - e.block))
        else (.at (b - e.block + e.start), e.len - (b - e.block)) := by
  have hhi : b < hi := Nat.lt_of_lt_of_le hb.2 (h.range hl).2.1
  obtain ⟨leaf, hfind, hstores⟩ := (getExtentNode_denotes h hfuel hhi).1 l hl hb
  have hscan := scan_extents (eeBlock leaf) b l.extents 0 (u32 (b + 1)) fun j hj => by
    rw [Nat.zero_add]
    exact (hstores.extent j hj).1
  rw [Nat.zero_add] at hscan
  rw [readExtentBlock, hfind]
  dsimp only
  rw [hstores.entries, hscan]
  rcases hlast : (l.behind b).getLast? with _ | e
  · have hnil : l.behind b = [] := List.getLast?_eq_none_iff.mp hlast
    rw [Leaf.lastKey, Leaf.ahead, hlast, ← Leaf.behind, hnil]
    rfl
  · obtain ⟨init, hinit⟩ := List.getLast?_eq_some_iff.mp hlast
    have hlen : (l.behind b).length = init.length + 1 := by
      rw [hinit, List.length_append, List.length_singleton]
    have hsplit := l.behind_append_ahead b
    have hlt : init.length < l.extents.length := by
      rw [← hsplit, List.length_append]
      omega
    have hget : l.extents[init.length] = e := by
      simp only [← hsplit, hinit]
      simp
    obtain ⟨hblock, hlength, hstart⟩ := hstores.extent init.length hlt
    rw [hget] at hblock hlength hstart
    rw [← Leaf.behind, ← Leaf.ahead, hlen]
    dsimp only
    rw [hblock, hlength, hstart, Leaf.lastKey]

/-- A block that no leaf has is an error. -/
theorem readExtentBlock_error (h : Denotes sb dev d 0 hi node leaves) {fuel : ℕ} (hfuel : d < fuel)
    (hhi : b < hi) (hno : ∀ l ∈ leaves, ¬l.holds b) :
    readExtentBlock sb dev fuel node b = (.error, 0) := by
  rw [readExtentBlock, (getExtentNode_denotes h hfuel hhi).2 hno (Nat.zero_le _)]

end Pmon.Fs.Ext2
