import Mathlib.Order.Interval.Finset.Nat
import Pmon.Fs.ExtentTree
import Pmon.Lib.Walk

/-!
# Descending a tree that may be corrupt

`get_extent_node` of `pmon/fs/ext2fs.c` on any disk.  Here it is run with a list of the index entries
that it looks at, each with the size of what it stands in: `inode->i_block` for the root, a block for
all other nodes.  What an entry behind the end of the buffer would say is in `behind`, and a position
is what `devio_lseek` makes of 64 bits.

The depth that a node claims is only compared with zero, and the number of its entries is not held
against the size of the block.

## Key results

- `looked_inside_iff`: when the entries that are looked at in one node lie in it.
- `returns_block_iff`: the same for a whole descent from a block.
- `getExtentNode_exact`: exactly when the function returns and has looked at nothing else.
-/

namespace Pmon.Fs.Ext2

open Pmon.Lib

/-! ## §1 The descent -/

/-- The size of `inode->i_block`. -/
def rootSize : ℕ := 60

/-- The position of a block as `devio_lseek` gets it. -/
def Super.seekPlace (sb : Super) (blk : ℕ) : ℕ := sb.place blk % 2 ^ 64

/-- The buffer with a block in it. -/
def inBuffer (sb : Super) (dev : Device) (behind : Mem) (blk : ℕ) : Mem := fun a =>
  if a < sb.blockSize then dev.nodes (sb.seekPlace blk + a) else behind a

/-- `get_extent_node`: the leaf, unless it returns 0, and the entries that it has looked at, each
    with the size of its node; without an answer it has not returned yet. -/
def getExtentNodeTrace (sb : Super) (dev : Device) (behind : Mem) (fileBlock : ℕ) :
    ℕ → ℕ → Mem → Option (Option Mem × List (ℕ × ℕ))
  | 0, _, _ => none
  | fuel + 1, size, hdr =>
    if ehMagic hdr ≠ extMagic then some (none, [])
    else if ehDepth hdr = 0 then some (some hdr, [])
    else
      let i := (scan (eiBlock hdr) fileBlock (ehEntries hdr) 0 0).1
      -- the entry that ends the scan has been looked at as well, if there is one
      let looked := (List.range (min (i + 1) (ehEntries hdr))).map fun j => (size, j)
      match i with
      | 0 => some (none, looked)
      | i + 1 =>
        if dev.fails (sb.seekPlace (eiLeaf hdr i)) sb.blockSize then some (none, looked)
        else
          match getExtentNodeTrace sb dev behind fileBlock fuel sb.blockSize
            (inBuffer sb dev behind (eiLeaf hdr i)) with
          | none => none
          | some (leaf, more) => some (leaf, looked ++ more)

/-- All entries that were looked at lie in their nodes. -/
def AllInside (looked : List (ℕ × ℕ)) : Prop := ∀ e ∈ looked, 12 + 12 * (e.2 + 1) ≤ e.1

/-- The function returns, having looked at nothing else. -/
def ReturnsInside (sb : Super) (dev : Device) (behind : Mem) (fileBlock size : ℕ) (hdr : Mem) :
    Prop :=
  ∃ fuel leaf looked,
    getExtentNodeTrace sb dev behind fileBlock fuel size hdr = some (leaf, looked) ∧
      AllInside looked

/-! ## §2 The disk -/

/-- The block that an index node gives for a block of the file. -/
def chosen (fileBlock : ℕ) (hdr : Mem) : Option ℕ :=
  if ehMagic hdr ≠ extMagic ∨ ehDepth hdr = 0 then none
  else
    match (scan (eiBlock hdr) fileBlock (ehEntries hdr) 0 0).1 with
    | 0 => none
    | i + 1 => some (eiLeaf hdr i)

/-- The block that comes after a block on the descent. -/
def below (sb : Super) (dev : Device) (behind : Mem) (fileBlock blk : ℕ) : Option ℕ :=
  if dev.fails (sb.seekPlace blk) sb.blockSize then none
  else chosen fileBlock (inBuffer sb dev behind blk)

/-- An index node of some size: its entries fit, or one that does starts behind the block of the
    file, where the search ends. -/
def Fits (fileBlock size : ℕ) (hdr : Mem) : Prop :=
  ehMagic hdr = extMagic → ehDepth hdr ≠ 0 →
    (∀ j < ehEntries hdr, 12 + 12 * (j + 1) ≤ size) ∨
      ∃ j, 12 + 12 * (j + 1) ≤ size ∧ fileBlock < eiBlock hdr j

variable {sb : Super} {dev : Device} {behind hdr : Mem} {fileBlock size blk fuel : ℕ}

theorem eiLeaf_lt (hdr : Mem) (i : ℕ) : eiLeaf hdr i < 2 ^ 48 := by
  have hhi := Mem.half_lt (m := hdr) (a := 12 + 12 * i + 8)
  have hlo := Mem.word_lt (m := hdr) (a := 12 + 12 * i + 4)
  rw [eiLeaf]
  omega

theorem below_lt {next : ℕ} (h : Goes (below sb dev behind fileBlock) blk next) : next < 2 ^ 48 := by
  rw [Goes, below] at h
  split_ifs at h
  rw [chosen] at h
  split_ifs at h
  split at h
  · cases h
  · cases h
    exact eiLeaf_lt _ _

/-! ## §3 One node -/

/-- **One node**: the entries that are looked at lie in it. -/
theorem looked_inside_iff (hmagic : ehMagic hdr = extMagic) (hdepth : ehDepth hdr ≠ 0) :
    AllInside ((List.range (min ((scan (eiBlock hdr) fileBlock (ehEntries hdr) 0 0).1 + 1)
        (ehEntries hdr))).map fun j => (size, j)) ↔ Fits fileBlock size hdr := by
  obtain ⟨-, hend, hbefore, hstop⟩ := scan_spec (eiBlock hdr) fileBlock (ehEntries hdr) 0 0
  rw [Nat.zero_add] at hend hstop
  generalize (scan (eiBlock hdr) fileBlock (ehEntries hdr) 0 0).1 = r at hend hbefore hstop ⊢
  have hall : AllInside ((List.range (min (r + 1) (ehEntries hdr))).map fun j => (size, j)) ↔
      ∀ j < min (r + 1) (ehEntries hdr), 12 + 12 * (j + 1) ≤ size := by
    simp only [AllInside, List.forall_mem_map, List.mem_range]
  rw [hall, Fits, forall_prop_of_true hmagic, forall_prop_of_true hdepth]
  constructor
  · intro h
    rcases Nat.lt_or_ge r (ehEntries hdr) with hlt | hge
    · exact .inr ⟨r, h r (by omega), hstop hlt⟩
    · exact .inl fun j hj => h j (by omega)
  · rintro (h | ⟨i, hi, hkey⟩) j hj
    · exact h j (by omega)
    · -- the search does not go past an entry that starts behind the block
      have hr : r ≤ i := by
        by_contra hlt
        have hle := hbefore i (Nat.zero_le _) (by omega)
        omega
      omega

theorem allInside_append {xs ys : List (ℕ × ℕ)} :
    AllInside (xs ++ ys) ↔ AllInside xs ∧ AllInside ys := List.forall_mem_append

theorem allInside_nil : AllInside [] := fun _ h => absurd h List.not_mem_nil

/-- A node that gives no block ends the descent. -/
theorem trace_of_chosen_none (sb : Super) (dev : Device) (behind : Mem)
    (h : chosen fileBlock hdr = none) (size : ℕ) :
    ∃ leaf looked, (∀ fuel, getExtentNodeTrace sb dev behind fileBlock (fuel + 1) size hdr =
      some (leaf, looked)) ∧ (AllInside looked ↔ Fits fileBlock size hdr) := by
  by_cases hmagic : ehMagic hdr = extMagic
  · by_cases hdepth : ehDepth hdr = 0
    · refine ⟨some hdr, [], fun fuel => ?_, iff_of_true allInside_nil fun _ h => absurd hdepth h⟩
      rw [getExtentNodeTrace, if_neg (not_not_intro hmagic), if_pos hdepth]
    · have hscan : (scan (eiBlock hdr) fileBlock (ehEntries hdr) 0 0).1 = 0 := by
        rw [chosen, if_neg (by simp [hmagic, hdepth])] at h
        split at h
        · assumption
        · cases h
      refine ⟨none, _, fun fuel => ?_, looked_inside_iff hmagic hdepth⟩
      rw [getExtentNodeTrace, if_neg (not_not_intro hmagic), if_neg hdepth]
      simp only [hscan]
  · refine ⟨none, [], fun fuel => ?_, iff_of_true allInside_nil fun h => absurd h hmagic⟩
    rw [getExtentNodeTrace, if_pos hmagic]

/-- A node that gives a block leads to it. -/
theorem trace_of_chosen_some {next : ℕ} (sb : Super) (dev : Device) (behind : Mem)
    (h : chosen fileBlock hdr = some next) (size : ℕ) :
    ∃ looked, (AllInside looked ↔ Fits fileBlock size hdr) ∧
      ∀ fuel, getExtentNodeTrace sb dev behind fileBlock (fuel + 1) size hdr =
        if dev.fails (sb.seekPlace next) sb.blockSize then some (none, looked)
        else
          (getExtentNodeTrace sb dev behind fileBlock fuel sb.blockSize
            (inBuffer sb dev behind next)).map fun r => (r.1, looked ++ r.2) := by
  rw [chosen] at h
  split_ifs at h with hend
  obtain ⟨hmagic, hdepth⟩ := not_or.mp hend
  rw [not_not] at hmagic
  split at h
  · cases h
  · rename_i i hscan
    cases h
    refine ⟨_, looked_inside_iff hmagic hdepth, fun fuel => ?_⟩
    rw [getExtentNodeTrace, if_neg (not_not_intro hmagic), if_neg hdepth]
    simp only [hscan]
    split
    · rfl
    · cases getExtentNodeTrace sb dev behind fileBlock fuel sb.blockSize
        (inBuffer sb dev behind (eiLeaf hdr i)) with
      | none => rfl
      | some r => rfl

/-! ## §4 The descent -/

/-- **A node**, with what its block does. -/
theorem returnsInside_iff (size : ℕ) (hdr : Mem) :
    ReturnsInside sb dev behind fileBlock size hdr ↔
      Fits fileBlock size hdr ∧ ∀ next, chosen fileBlock hdr = some next →
        dev.fails (sb.seekPlace next) sb.blockSize = true ∨
          ReturnsInside sb dev behind fileBlock sb.blockSize (inBuffer sb dev behind next) := by
  cases hchosen : chosen fileBlock hdr with
  | none =>
    obtain ⟨leaf, looked, htrace, hfits⟩ :=
      trace_of_chosen_none sb dev behind hchosen size
    constructor
    · rintro ⟨fuel, leaf', looked', hrun, hinside⟩
      cases fuel with
      | zero => cases hrun
      | succ fuel =>
        rw [htrace] at hrun
        cases hrun
        exact ⟨hfits.mp hinside, fun _ h => by cases h⟩
    · exact fun h => ⟨1, leaf, looked, htrace 0, hfits.mpr h.1⟩
  | some next =>
    obtain ⟨looked, hfits, htrace⟩ :=
      trace_of_chosen_some sb dev behind hchosen size
    simp only [Option.some.injEq, forall_eq']
    cases hfails : dev.fails (sb.seekPlace next) sb.blockSize with
    | true =>
      simp only [hfails, if_true] at htrace
      constructor
      · rintro ⟨fuel, leaf', looked', hrun, hinside⟩
        cases fuel with
        | zero => cases hrun
        | succ fuel =>
          rw [htrace] at hrun
          cases hrun
          exact ⟨hfits.mp hinside, .inl rfl⟩
      · exact fun h => ⟨1, none, looked, htrace 0, hfits.mpr h.1⟩
    | false =>
      simp only [hfails, Bool.false_eq_true, if_false] at htrace
      simp only [Bool.false_eq_true, false_or]
      constructor
      · rintro ⟨fuel, leaf', looked', hrun, hinside⟩
        cases fuel with
        | zero => cases hrun
        | succ fuel =>
          rw [htrace, Option.map_eq_some_iff] at hrun
          obtain ⟨⟨leaf, more⟩, hrest, heq⟩ := hrun
          cases heq
          obtain ⟨hhere, hmore⟩ := allInside_append.mp hinside
          exact ⟨hfits.mp hhere, fuel, leaf, more, hrest, hmore⟩
      · rintro ⟨hhere, fuel, leaf, more, hrest, hmore⟩
        refine ⟨fuel + 1, leaf, looked ++ more, ?_, allInside_append.mpr ⟨hfits.mpr hhere, hmore⟩⟩
        rw [htrace, hrest]
        rfl

/-- The descent from a block that can be read: it comes to blocks that fit, and stops. -/
structure DescendsWell (sb : Super) (dev : Device) (behind : Mem) (fileBlock blk : ℕ) : Prop where
  fits : ∀ b, Relation.ReflTransGen (Goes (below sb dev behind fileBlock)) blk b →
    dev.fails (sb.seekPlace b) sb.blockSize = false →
      Fits fileBlock sb.blockSize (inBuffer sb dev behind b)
  stops : Pmon.Lib.Stops (below sb dev behind fileBlock) blk

theorem goes_below_iff {next : ℕ} (hfails : dev.fails (sb.seekPlace blk) sb.blockSize = false) :
    Goes (below sb dev behind fileBlock) blk next ↔
      chosen fileBlock (inBuffer sb dev behind blk) = some next := by
  rw [Goes, below, hfails, if_neg Bool.false_ne_true]

/-- A block that cannot be read ends the descent. -/
theorem descendsWell_of_fails (hfails : dev.fails (sb.seekPlace blk) sb.blockSize = true) :
    DescendsWell sb dev behind fileBlock blk := by
  have hnone : below sb dev behind fileBlock blk = none := by rw [below, if_pos hfails]
  refine ⟨fun b hreach hok => ?_, 1, ?_⟩
  · rcases Relation.ReflTransGen.cases_head hreach with rfl | ⟨c, hgo, -⟩
    · rw [hfails] at hok
      cases hok
    · rw [Goes, hnone] at hgo
      cases hgo
  · rw [after, hnone]
    rfl

theorem returns_of_descendsWell (h : DescendsWell sb dev behind fileBlock blk)
    (hok : dev.fails (sb.seekPlace blk) sb.blockSize = false) :
    ReturnsInside sb dev behind fileBlock sb.blockSize (inBuffer sb dev behind blk) := by
  obtain ⟨n, hn⟩ := h.stops
  have hfits := h.fits
  clear h
  -- by the number of blocks to come
  induction n generalizing blk with
  | zero => cases hn
  | succ n ih =>
    refine (returnsInside_iff _ _).mpr ⟨hfits blk .refl hok, fun next hnext => ?_⟩
    cases hnextok : dev.fails (sb.seekPlace next) sb.blockSize with
    | true => exact .inl rfl
    | false =>
      have hgo := (goes_below_iff hok).mpr hnext
      rw [after, show below sb dev behind fileBlock blk = some next from hgo,
        Option.bind_some] at hn
      exact .inr (ih hnextok hn fun b hreach => hfits b (.head hgo hreach))

theorem descendsWell_of_returns
    (h : ReturnsInside sb dev behind fileBlock sb.blockSize (inBuffer sb dev behind blk))
    (hok : dev.fails (sb.seekPlace blk) sb.blockSize = false) :
    DescendsWell sb dev behind fileBlock blk := by
  obtain ⟨fuel, leaf, looked, hrun, hinside⟩ := h
  induction fuel generalizing blk leaf looked with
  | zero => cases hrun
  | succ fuel ih =>
    have hhere := (returnsInside_iff _ _).mp ⟨fuel + 1, leaf, looked, hrun, hinside⟩
    cases hchosen : chosen fileBlock (inBuffer sb dev behind blk) with
    | none =>
      have hnone : below sb dev behind fileBlock blk = none := by
        rw [below, hok, if_neg Bool.false_ne_true, hchosen]
      refine ⟨fun b hreach _ => ?_, 1, ?_⟩
      · rcases Relation.ReflTransGen.cases_head hreach with rfl | ⟨c, hgo, -⟩
        · exact hhere.1
        · rw [Goes, hnone] at hgo
          cases hgo
      · rw [after, hnone]
        rfl
    | some next =>
      have hgo := (goes_below_iff hok).mpr hchosen
      -- the rest of the run is one from the next block
      have hrest : DescendsWell sb dev behind fileBlock next := by
        cases hnextok : dev.fails (sb.seekPlace next) sb.blockSize with
        | true => exact descendsWell_of_fails hnextok
        | false =>
          obtain ⟨looked', -, htrace⟩ :=
            trace_of_chosen_some sb dev behind hchosen sb.blockSize
          rw [htrace, hnextok, if_neg Bool.false_ne_true, Option.map_eq_some_iff] at hrun
          obtain ⟨⟨leaf', more⟩, hnextrun, heq⟩ := hrun
          cases heq
          exact ih hnextok leaf' more hnextrun (allInside_append.mp hinside).2
      refine ⟨fun b hreach hbok => ?_, ?_⟩
      · rcases Relation.ReflTransGen.cases_head hreach with rfl | ⟨c, hgo', hreach'⟩
        · exact hhere.1
        · obtain rfl : next = c := Option.some.inj (hgo.symm.trans hgo')
          exact hrest.fits b hreach' hbok
      · obtain ⟨n, hn⟩ := hrest.stops
        refine ⟨n + 1, ?_⟩
        rw [after, show below sb dev behind fileBlock blk = some next from hgo, Option.bind_some,
          hn]

/-- **get_extent_node**, exactly: it returns, having looked only at entries inside the node that it
    has just come to, if and only if the entries fit in the root and in each block that the descent
    for this block of the file comes to and can read, and no such block leads back to itself. -/
theorem getExtentNode_exact (sb : Super) (dev : Device) (behind root : Mem) (fileBlock : ℕ) :
    ReturnsInside sb dev behind fileBlock rootSize root ↔
      Fits fileBlock rootSize root ∧ ∀ first, chosen fileBlock root = some first →
        ∀ b, Relation.ReflTransGen (Goes (below sb dev behind fileBlock)) first b →
          (dev.fails (sb.seekPlace b) sb.blockSize = false →
            Fits fileBlock sb.blockSize (inBuffer sb dev behind b)) ∧
          ¬ Relation.TransGen (Goes (below sb dev behind fileBlock)) b b := by
  have hstops : ∀ first, Pmon.Lib.Stops (below sb dev behind fileBlock) first ↔
      ∀ b, Relation.ReflTransGen (Goes (below sb dev behind fileBlock)) first b →
        ¬ Relation.TransGen (Goes (below sb dev behind fileBlock)) b b := fun first =>
    stops_iff (Set.finite_Iio (2 ^ 48)) fun _ _ => below_lt
  rw [returnsInside_iff]
  refine and_congr_right fun _ => forall_congr' fun first => forall_congr' fun _ => ?_
  constructor
  · intro h b hreach
    have hwell : DescendsWell sb dev behind fileBlock first := by
      cases hok : dev.fails (sb.seekPlace first) sb.blockSize with
      | true => exact descendsWell_of_fails hok
      | false =>
        refine descendsWell_of_returns (h.resolve_left ?_) hok
        rw [hok]
        exact Bool.false_ne_true
    exact ⟨hwell.fits b hreach, (hstops first).mp hwell.stops b hreach⟩
  · intro h
    cases hok : dev.fails (sb.seekPlace first) sb.blockSize with
    | true => exact .inl rfl
    | false =>
      refine .inr (returns_of_descendsWell ⟨fun b hreach => (h b hreach).1, ?_⟩ hok)
      exact (hstops first).mpr fun b hreach => (h b hreach).2

/-- An index node with one entry, for block 1. -/
def loopNode : List UInt8 :=
  [0x0a, 0xf3, 1, 0, 4, 0, 1, 0, 0, 0, 0, 0, 0, 0, 0, 0, 1, 0, 0, 0, 0, 0, 0, 0]

/-- A disk that has it in each block. -/
def loopDisk : Device where
  nodes a := loopNode.getD (a % 1024) 0
  data _ := 0
  fails _ _ := false

/-- Block 1 leads back to itself, and the function does not return. -/
theorem getExtentNode_loops :
    ¬ ReturnsInside ⟨1024, 0⟩ loopDisk (fun _ => 0) 0 rootSize fun a => loopNode.getD a 0 := by
  intro h
  have hroot : chosen 0 (fun a => loopNode.getD a 0) = some 1 := by decide
  have hblock : Goes (below ⟨1024, 0⟩ loopDisk (fun _ => 0) 0) 1 1 := by
    change below ⟨1024, 0⟩ loopDisk (fun _ => 0) 0 1 = some 1
    decide
  rcases ((returnsInside_iff _ _).mp h).2 1 hroot with hfails | hreturns
  · cases hfails
  · exact not_stops_of_round ⟨1, .refl, .single hblock⟩ (descendsWell_of_returns hreturns rfl).stops

end Pmon.Fs.Ext2
