import Pmon.Fs.Mtd
import Pmon.Lib.Run
import Mathlib.Data.List.Nodup

/-!
# The table of good blocks

`creat_part_trans_table` of `pmon/fs/mtd.c` lists the good blocks of a partition, and makes the
partition as long as the list.  It is called again when blocks have changed state.

## Key results

- `transLoop_eq`: the loops of the source list the good blocks in order.
- `TableRight`: what the table is for.
- `transTable_exact`: after which rebuilds the table is right.
-/

namespace Pmon.Fs

open Pmon.Lib

/-! ## §1 The loops -/

/-- The inner loop: the first good block of the `n` blocks from `good` on, or the end. -/
def skipBad (bad : ℕ → Bool) : (n good : ℕ) → ℕ
  | 0, good => good
  | n + 1, good => if bad good then skipBad bad n (good + 1) else good

/-- The outer loop, with `n` turns to go: the entries that it stores. -/
def transLoop (bad : ℕ → Bool) (stop : ℕ) : (n good : ℕ) → List ℕ
  | 0, _ => []
  | n + 1, good =>
    let good := skipBad bad (stop - good) good
    if good = stop then [] else good :: transLoop bad stop n (good + 1)

variable {bad : ℕ → Bool} {good n stop : ℕ}

/-- The good blocks from a block on are those from the next good one on. -/
theorem filter_skipBad (bad : ℕ → Bool) (n good : ℕ) :
    good ≤ skipBad bad n good ∧ skipBad bad n good ≤ good + n ∧
      (List.range' good n).filter (fun b => !bad b) =
        (List.range' (skipBad bad n good) (good + n - skipBad bad n good)).filter
          (fun b => !bad b) ∧
      (skipBad bad n good < good + n → bad (skipBad bad n good) = false) := by
  induction n generalizing good with
  | zero => simp [skipBad]
  | succ n ih =>
    rw [skipBad]
    by_cases hbad : bad good = true
    · obtain ⟨hge, hle, hsame, hgood⟩ := ih (good + 1)
      rw [if_pos hbad, List.range'_succ, List.filter_cons_of_neg (by simp [hbad]), hsame]
      refine ⟨by omega, by omega, ?_, fun hlt => hgood (by omega)⟩
      rw [show good + 1 + n = good + (n + 1) by omega]
    · rw [if_neg hbad]
      refine ⟨Nat.le_refl _, by omega, ?_, fun _ => by simpa using hbad⟩
      rw [Nat.add_sub_cancel_left]

/-- **The loops** list the good blocks in order. -/
theorem transLoop_eq (hgood : good ≤ stop) (hn : stop - good ≤ n) :
    transLoop bad stop n good =
      (List.range' good (stop - good)).filter (fun b => !bad b) := by
  induction n generalizing good with
  | zero =>
    have hzero : stop - good = 0 := by omega
    rw [hzero]
    rfl
  | succ n ih =>
    obtain ⟨hge, hle, hsame, hnext⟩ := filter_skipBad bad (stop - good) good
    have hstop : good + (stop - good) = stop := by omega
    rw [hstop] at hle hsame hnext
    rw [transLoop, hsame]
    generalize skipBad bad (stop - good) good = next at hge hle hnext ⊢
    by_cases hend : next = stop
    · rw [if_pos hend, hend, Nat.sub_self]
      rfl
    · have hlt : next < stop := by omega
      obtain ⟨m, hm⟩ : ∃ m, stop - next = m + 1 := ⟨stop - next - 1, by omega⟩
      have hrest : stop - (next + 1) = m := by omega
      rw [if_neg hend, hm, List.range'_succ, List.filter_cons_of_pos (by simp [hnext hlt]),
        ih (by omega) (by omega), hrest]

/-- `goodBlocks` is what the loops store. -/
theorem goodBlocks_eq (p : MtdFile) :
    transLoop p.bad p.last (p.last - p.first) p.first = goodBlocks p := by
  rcases Nat.le_total p.first p.last with hle | hle
  · rw [transLoop_eq hle (Nat.le_refl _)]
    rfl
  · have hzero : p.last - p.first = 0 := by omega
    rw [goodBlocks, hzero]
    rfl

/-! ## §2 What the table is for -/

/-- The block behind a partition as it was added. -/
def MtdFile.lastReal (p : MtdFile) : ℕ :=
  (p.partOffset + p.partSizeReal) % 18446744073709551616 / p.mtd.erasesize

/-- The blocks of a partition. -/
def MtdFile.Block (p : MtdFile) (b : ℕ) : Prop := p.first ≤ b ∧ b < p.lastReal

/-- The partition, opened as a whole, at an offset. -/
def MtdFile.openAt (p : MtdFile) (o : ℕ) : MtdFile :=
  { p with mode := .block, openOffset := 0, posn := o }

/-- **The table is right**: its entries are the good blocks of the partition, in order, and so the
    offsets in front of the good size are places in good blocks, each of its own. -/
structure TableRight (junk : ℕ → ℕ) (p : MtdFile) : Prop where
  increasing : p.transTable.Pairwise (· < ·)
  image : ∀ b, b ∈ p.transTable ↔ p.Block b ∧ p.bad b = false
  size : p.partSize = p.transTable.length * p.mtd.erasesize
  good : ∀ o < p.partSize, p.Block (fileToMtdPos junk (p.openAt o) / p.mtd.erasesize) ∧
    p.bad (fileToMtdPos junk (p.openAt o) / p.mtd.erasesize) = false
  injective : ∀ o < p.partSize, ∀ o' < p.partSize,
    fileToMtdPos junk (p.openAt o) = fileToMtdPos junk (p.openAt o') → o = o'

/-- The table is built for the blocks as they are now. -/
def rebuild (p : MtdFile) (bad : ℕ → Bool) : MtdFile := creatPartTransTable { p with bad }

/-- A partition as `add_mtd_device` leaves it. -/
structure NewPart extends MtdFile where
  nand : mtd.nand = true
  size_real : partSize = partSizeReal

/-- No block of the partition behind its recorded end is good. -/
def NoneBehind (p : MtdFile) (bad : ℕ → Bool) : Prop :=
  ∀ b, p.Block b → p.last ≤ b → bad b = true

variable {p : MtdFile} {junk : ℕ → ℕ} {o : ℕ}

/-! ## §3 Offsets -/

/-- Where an offset of the partition is. -/
theorem fileToMtdPos_openAt (junk : ℕ → ℕ) (hnand : p.mtd.nand = true)
    (hlt : ∀ b ∈ p.transTable, b * p.mtd.erasesize < 4294967296) (ho : o < 4294967296)
    (hin : o / p.mtd.erasesize < p.transTable.length) :
    fileToMtdPos junk (p.openAt o) =
      p.transTable[o / p.mtd.erasesize] * p.mtd.erasesize + o % p.mtd.erasesize := by
  have htrans : (p.openAt o).translates = true := by
    simp [MtdFile.translates, MtdFile.openAt, hnand]
  have hu : u32 ((p.openAt o).posn + (p.openAt o).openOffset) = o :=
    u32_of_bounds (Int.add_zero _) ho
  have hblock := hlt _ (List.getElem_mem hin)
  rw [fileToMtdPos, if_pos htrans, hu]
  simp only [MtdFile.openAt]
  rw [List.getD_eq_getElem?_getD, List.getElem?_eq_getElem hin, Option.getD_some,
    Nat.mod_eq_of_lt hblock]

/-- A table with the good blocks in order is right. -/
theorem tableRight_of_image (hnand : p.mtd.nand = true)
    (hreal : (p.partOffset + p.partSizeReal) % 18446744073709551616 < 4294967296)
    (hsize : p.partSize = p.transTable.length * p.mtd.erasesize) (hsize32 : p.partSize < 4294967296)
    (hincreasing : p.transTable.Pairwise (· < ·))
    (himage : ∀ b, b ∈ p.transTable ↔ p.Block b ∧ p.bad b = false) : TableRight junk p := by
  have hes := p.mtd.erasesize_pos
  have hlt : ∀ b ∈ p.transTable, b * p.mtd.erasesize < 4294967296 := by
    intro b hb
    have hblock := ((himage b).mp hb).1.2
    rw [MtdFile.lastReal, Nat.lt_div_iff_mul_lt hes] at hblock
    omega
  have hindex {o : ℕ} (ho : o < p.partSize) : o / p.mtd.erasesize < p.transTable.length := by
    rw [Nat.div_lt_iff_lt_mul hes, ← hsize]
    exact ho
  have hpos {o : ℕ} (ho : o < p.partSize) :=
    fileToMtdPos_openAt junk hnand hlt (by omega) (hindex ho)
  have hdiv {o : ℕ} (ho : o < p.partSize) (hin : o / p.mtd.erasesize < p.transTable.length) :
      fileToMtdPos junk (p.openAt o) / p.mtd.erasesize = p.transTable[o / p.mtd.erasesize] := by
    rw [hpos ho, Nat.mul_comm, Nat.mul_add_div hes, Nat.div_eq_of_lt (Nat.mod_lt _ hes),
      Nat.add_zero]
  refine ⟨hincreasing, himage, hsize, fun o ho => ?_, fun o ho o' ho' heq => ?_⟩
  · rw [hdiv ho (hindex ho)]
    exact (himage _).mp (List.getElem_mem _)
  · -- the same block, and the same place in it
    have hblock : o / p.mtd.erasesize = o' / p.mtd.erasesize := by
      have hentry := congrArg (· / p.mtd.erasesize) heq
      rw [hdiv ho (hindex ho), hdiv ho' (hindex ho')] at hentry
      have hnodup : p.transTable.Nodup := hincreasing.imp Nat.ne_of_lt
      exact (List.Nodup.getElem_inj_iff hnodup).mp hentry
    have hmod : o % p.mtd.erasesize = o' % p.mtd.erasesize := by
      have hrest := congrArg (· % p.mtd.erasesize) heq
      rw [hpos ho, hpos ho', Nat.mul_add_mod_self_right, Nat.mul_add_mod_self_right,
        Nat.mod_mod, Nat.mod_mod] at hrest
      exact hrest
    rw [← Nat.div_add_mod o p.mtd.erasesize, ← Nat.div_add_mod o' p.mtd.erasesize, hblock, hmod]

/-! ## §4 Rebuilding -/

/-- What every partition is like, however often its table has been built. -/
structure Recorded (p : MtdFile) : Prop where
  nand : p.mtd.nand = true
  within : p.last ≤ max p.first p.lastReal
  real_lt : (p.partOffset + p.partSizeReal) % 18446744073709551616 < 4294967296

theorem NewPart.recorded (p : NewPart) : Recorded p.toMtdFile where
  nand := p.nand
  within := by
    rw [MtdFile.last, MtdFile.lastReal, p.size_real]
    exact Nat.le_max_right _ _
  real_lt := by
    rw [← p.size_real]
    exact p.partEnd_lt

theorem length_goodBlocks_le (p : MtdFile) : (goodBlocks p).length ≤ p.last - p.first := by
  have hfilter := List.length_filter_le (fun good => !p.bad good)
    (List.range' p.first (p.last - p.first))
  rwa [List.length_range'] at hfilter

theorem rebuild_partSize (p : MtdFile) (bad : ℕ → Bool) :
    (rebuild p bad).partSize = (goodBlocks { p with bad }).length * p.mtd.erasesize ∧
      p.partOffset + (rebuild p bad).partSize < 4294967296 := by
  have hend := goodBlocks_end { p with bad }
  have hsize : (rebuild p bad).partSize =
      (goodBlocks { p with bad }).length * p.mtd.erasesize := by
    apply Nat.mod_eq_of_lt
    exact Nat.lt_of_le_of_lt (Nat.le_add_left _ _) hend
  exact ⟨hsize, by rw [hsize]; exact hend⟩

/-- The recorded end is behind as many blocks as there are in the table. -/
theorem rebuild_last (p : MtdFile) (bad : ℕ → Bool) :
    (rebuild p bad).last = p.first + (goodBlocks { p with bad }).length := by
  obtain ⟨hsize, hlt⟩ := rebuild_partSize p bad
  have hmod : (p.partOffset + (rebuild p bad).partSize) % 18446744073709551616 =
      p.partOffset + (rebuild p bad).partSize := Nat.mod_eq_of_lt (by omega)
  rw [MtdFile.last]
  change (p.partOffset + (rebuild p bad).partSize) % 18446744073709551616 / p.mtd.erasesize = _
  rw [hmod, hsize, Nat.add_mul_div_right _ _ p.mtd.erasesize_pos]
  rfl

theorem Recorded.rebuild (h : Recorded p) (bad : ℕ → Bool) : Recorded (rebuild p bad) where
  nand := h.nand
  within := by
    have hlen := length_goodBlocks_le { p with bad }
    have hwithin := h.within
    change (goodBlocks { p with bad }).length ≤ p.last - p.first at hlen
    rw [rebuild_last]
    change _ ≤ max p.first p.lastReal
    omega
  real_lt := h.real_lt

/-- **One rebuild** makes the table right exactly when nothing good is behind the recorded end. -/
theorem rebuild_right_iff (h : Recorded p) (bad : ℕ → Bool) :
    TableRight junk (rebuild p bad) ↔ NoneBehind p bad := by
  have hmem (b : ℕ) : b ∈ (rebuild p bad).transTable ↔
      (p.first ≤ b ∧ b < p.first + (p.last - p.first)) ∧ bad b = false := by
    change b ∈ goodBlocks { p with bad } ↔ _
    rw [goodBlocks, List.mem_filter, List.mem_range'_1]
    simp [MtdFile.first, MtdFile.last]
  have hwithin := h.within
  constructor
  · intro hright b hblock hbehind
    by_contra hgood
    have hin := (hmem b).mp ((hright.image b).mpr ⟨hblock, eq_false_of_ne_true hgood⟩)
    omega
  · intro hnone
    obtain ⟨hsize, hlt⟩ := rebuild_partSize p bad
    apply tableRight_of_image (p := rebuild p bad) h.nand h.real_lt hsize (by omega)
    · exact (List.pairwise_lt_range' ..).filter _
    · intro b
      rw [hmem]
      apply and_congr_left
      intro hgood
      constructor
      · rintro ⟨hge, hlt⟩
        exact ⟨hge, by change b < p.lastReal; omega⟩
      · intro hblock
        have hfirst : p.first ≤ b := hblock.1
        refine ⟨hfirst, ?_⟩
        by_contra hbehind
        have hbad := hnone b hblock (by omega)
        change bad b = false at hgood
        rw [hgood] at hbad
        cases hbad

/-- **The table of good blocks** of a partition, over any number of rebuilds, the blocks having
    changed in between in any way: it is right after each of them, if and only if each time the
    blocks behind the recorded end are all bad. -/
theorem transTable_exact (junk : ℕ → ℕ) (p : NewPart) (bads : List (ℕ → Bool)) :
    EveryStep rebuild (fun p bad => TableRight junk (rebuild p bad)) p.toMtdFile bads ↔
      EveryStep rebuild NoneBehind p.toMtdFile bads := by
  apply everyStep_iff
  · intro p bad h
    exact rebuild_right_iff h bad
  · intro p bad h _
    exact h.rebuild bad
  · exact p.recorded

/-- A partition of four blocks. -/
def fourBlocks : NewPart where
  mtd := ⟨true, 16384, 512, 65536, ⟨262144, rfl⟩, ⟨32, rfl⟩, ⟨4, rfl⟩, by decide, by decide, nofun⟩
  partOffset := 0
  partSize := 65536
  partSizeReal := 65536
  transTable := []
  bad _ := false
  mode := .block
  openSize := 65536
  openOffset := 0
  posn := 0
  partOffset_lt := Nat.two_pow_pos 32
  partEnd_lt := by decide
  nand := rfl
  size_real := rfl

/-- **Built twice**, with the first block bad: the last block, which is good, is lost. -/
theorem rebuild_loses :
    (rebuild fourBlocks.toMtdFile (decide <| · = 0)).transTable = [1, 2, 3] ∧
      (rebuild (rebuild fourBlocks.toMtdFile (decide <| · = 0)) (decide <| · = 0)).transTable =
        [1, 2] ∧
      ∀ junk, ¬ TableRight junk
        (rebuild (rebuild fourBlocks.toMtdFile (decide <| · = 0)) (decide <| · = 0)) := by
  refine ⟨by decide, by decide, fun junk hright => ?_⟩
  have hlost := (hright.image 3).mpr ⟨⟨by decide, by decide⟩, by decide⟩
  revert hlost
  decide

end Pmon.Fs
