import Pmon.Fs.ExtentTree

/-!
# Reading files in extents

`ext2_read_file1` reads run after run of blocks, without looking a block up inside a run.  The
runs are right up to the first block behind all extents of its leaf: from there on everything is
read as a hole.

## Key results

- `turn_iff`: one turn is right where its block is the one that the tree gives.
- `good_iff_readable`: when what is left to read is read right.
- `ext2ReadFile1_exact`: exactly when a read gives the bytes of the file.
- `hole_runs_on`: a hole at the end of a leaf hides the next leaf.
-/

namespace Pmon.Fs.Ext2

open Pmon.Lib

/-! ## §1 What a file holds -/

/-- A byte of the file. -/
def fileByte (sb : Super) (data : Mem) (es : List Extent) (a : ℕ) : UInt8 :=
  match lookup es (a / sb.blockSize) with
  | none => 0
  | some blk => data (sb.place blk + a % sb.blockSize)

/-- The bytes of the file from a position on, each looked up on its own. -/
def fileBytes (sb : Super) (data : Mem) (es : List Extent) (pos size : ℕ) : List UInt8 :=
  (List.range' pos size).map (fileByte sb data es)

/-- The bytes of a piece of a block. -/
def pieceBytes (sb : Super) (data : Mem) (src : Option ℕ) (skip len : ℕ) : List UInt8 :=
  match src with
  | none => List.replicate len 0
  | some blk => data.slice (sb.place blk + skip) len

def Blk.source : Blk → Option ℕ
  | .at blk => some blk
  | _ => none

variable {sb : Super} {dev : Device} {data : Mem} {es : List Extent} {a b i len skip : ℕ}
  {blk : Blk}

theorem length_fileBytes {pos size : ℕ} : (fileBytes sb data es pos size).length = size := by
  rw [fileBytes, List.length_map, List.length_range']

theorem fileBytes_add {pos n k : ℕ} :
    fileBytes sb data es pos (n + k) =
      fileBytes sb data es pos n ++ fileBytes sb data es (pos + n) k := by
  rw [fileBytes, fileBytes, fileBytes, ← List.map_append, List.range'_append_1]

theorem length_pieceBytes {src : Option ℕ} : (pieceBytes sb data src skip len).length = len := by
  cases src with
  | none => exact List.length_replicate
  | some blk => exact Mem.length_slice

/-- Inside a block the file is a piece of one block of the device, or zeros. -/
theorem fileBytes_block (skip : ℕ) (hfit : skip + len ≤ sb.blockSize) :
    fileBytes sb data es (i * sb.blockSize + skip) len =
      pieceBytes sb data (lookup es i) skip len := by
  induction len generalizing skip with
  | zero =>
    rw [fileBytes, List.range'_zero]
    cases lookup es i <;> rfl
  | succ len ih =>
    have hpos : 0 < sb.blockSize := by omega
    have hdiv : (i * sb.blockSize + skip) / sb.blockSize = i := by
      rw [Nat.mul_comm, Nat.mul_add_div hpos, Nat.div_eq_of_lt (by omega), Nat.add_zero]
    have hmod : (i * sb.blockSize + skip) % sb.blockSize = skip := by
      rw [Nat.mul_comm, Nat.mul_add_mod, Nat.mod_eq_of_lt (by omega)]
    have hrest := ih (skip + 1) (by omega)
    rw [fileBytes] at hrest ⊢
    rw [List.range'_succ, List.map_cons, Nat.add_assoc, hrest, fileByte, hdiv, hmod]
    cases lookup es i <;> rfl

/-- Different sources differ on some disk. -/
theorem source_eq {src src' : Option ℕ} (hlen : len ≠ 0) (hbs : sb.blockSize ≠ 0)
    (h : ∀ data, pieceBytes sb data src skip len = pieceBytes sb data src' skip len) :
    src = src' := by
  obtain ⟨n, rfl⟩ : ∃ n, len = n + 1 := ⟨len - 1, by omega⟩
  have hheads : ∀ data : Mem, (pieceBytes sb data src skip (n + 1)).head? =
      (pieceBytes sb data src' skip (n + 1)).head? := fun data => by rw [h data]
  rcases src with _ | b <;> rcases src' with _ | b'
  · rfl
  · exact absurd (hheads fun _ => 1) (by simp [pieceBytes, List.replicate_succ, Mem.slice])
  · exact absurd (hheads fun _ => 1) (by simp [pieceBytes, List.replicate_succ, Mem.slice])
  · have hhead := hheads fun a => if a = sb.place b + skip then 1 else 0
    simp only [pieceBytes, Mem.slice, List.head?_cons, if_pos, Option.some.injEq] at hhead
    split at hhead
    · rename_i hplace
      rw [Super.place, Super.place, Nat.add_right_cancel_iff, Nat.add_right_cancel_iff] at hplace
      rw [Nat.eq_of_mul_eq_mul_right (Nat.pos_of_ne_zero hbs) hplace]
    · exact absurd hhead (by decide)

/-! ## §2 Turns -/

theorem getExtentNode_data (data : Mem) (fuel : ℕ) (hdr : Mem) :
    getExtentNode sb { dev with data } fuel hdr b = getExtentNode sb dev fuel hdr b := by
  induction fuel generalizing hdr with
  | zero => rfl
  | succ fuel ih =>
    simp only [getExtentNode, ih]
    rfl

theorem readExtentBlock_data (data : Mem) (fuel : ℕ) (root : Mem) :
    readExtentBlock sb { dev with data } fuel root b = readExtentBlock sb dev fuel root b := by
  rw [readExtentBlock, readExtentBlock, getExtentNode_data]

/-- A read: where it starts and ends, and the tree of its file. -/
structure Reading where
  sb : Super
  dev : Device
  fuel : ℕ
  root : Mem
  leaves : List Leaf
  pos : ℕ
  fin : ℕ

/-- The block behind a read. -/
def Reading.stop (r : Reading) : ℕ := (r.fin + r.sb.blockSize - 1) / r.sb.blockSize

/-- Where in the file a turn starts. -/
def Reading.at (r : Reading) (i : ℕ) : ℕ := max r.pos (i * r.sb.blockSize)

/-- What is left of a read is read right, whatever the data. -/
def Reading.Good (r : Reading) (i leftblks : ℕ) (blk : Blk) : Prop :=
  ∀ data, readBlocks r.sb { r.dev with data } r.fuel r.root r.pos (r.stop - i) i leftblks blk
      (r.fin - r.at i) =
    fileBytes r.sb data (allExtents r.leaves) (r.at i) (r.fin - r.at i)

/-- A read of some bytes from a device that works. -/
structure Reading.Ok (r : Reading) : Prop where
  works : ∀ offs n, r.dev.fails offs n = false
  blockSize_pos : 0 < r.sb.blockSize
  pos_lt : r.pos < r.fin

variable {r : Reading} {leftblks : ℕ}

/-- The block and the count that a turn of the loop works with. -/
def Reading.turn (r : Reading) (i leftblks : ℕ) (blk : Blk) : Blk × ℕ :=
  if leftblks = 0 then readExtentBlock r.sb r.dev r.fuel r.root i else (blk.next, leftblks)

theorem lt_stop_iff (hpos : 0 < r.sb.blockSize) : i < r.stop ↔ i * r.sb.blockSize < r.fin := by
  rw [Reading.stop, ← Nat.succ_le_iff, Nat.le_div_iff_mul_le hpos, Nat.succ_mul]
  omega

/-- Behind the end nothing is left. -/
theorem good_of_stop_le (hok : r.Ok) (hi : r.stop ≤ i) : r.Good i leftblks blk := by
  intro data
  have hend : ¬i * r.sb.blockSize < r.fin := by
    rw [← lt_stop_iff hok.blockSize_pos]
    omega
  rw [Nat.sub_eq_zero_of_le hi, Nat.sub_eq_zero_of_le (by rw [Reading.at]; omega)]
  rfl

/-- Where a turn starts in its block. -/
def Reading.skipped (r : Reading) (i : ℕ) : ℕ :=
  if i = r.pos / r.sb.blockSize then r.pos % r.sb.blockSize else 0

/-- What a turn reads. -/
def Reading.pieceLen (r : Reading) (i : ℕ) : ℕ :=
  min (r.fin - r.at i) (r.sb.blockSize - r.skipped i)

theorem at_eq (hok : r.Ok) (hstart : r.pos / r.sb.blockSize ≤ i) :
    r.at i = i * r.sb.blockSize + r.skipped i ∧ r.skipped i < r.sb.blockSize := by
  have hmod := Nat.mod_lt r.pos hok.blockSize_pos
  have hsplit := Nat.div_add_mod' r.pos r.sb.blockSize
  rw [Reading.at, Reading.skipped]
  rcases Nat.eq_or_lt_of_le hstart with heq | hlt
  · rw [if_pos heq.symm, ← heq]
    omega
  · have hle : (r.pos / r.sb.blockSize + 1) * r.sb.blockSize ≤ i * r.sb.blockSize :=
      Nat.mul_le_mul_right _ hlt
    rw [Nat.succ_mul] at hle
    rw [if_neg (Nat.ne_of_gt hlt)]
    have hpos := hok.blockSize_pos
    omega

/-- The next turn starts where a turn ends, and each turn reads something. -/
theorem at_succ (hok : r.Ok) (hi : i < r.stop) (hstart : r.pos / r.sb.blockSize ≤ i) :
    0 < r.pieceLen i ∧ r.fin - r.at i - r.pieceLen i = r.fin - r.at (i + 1) ∧
      (r.pieceLen i < r.fin - r.at i → r.at i + r.pieceLen i = r.at (i + 1)) := by
  obtain ⟨hat, hskip⟩ := at_eq hok hstart
  have hnext : r.pos < (i + 1) * r.sb.blockSize := by
    rw [← Nat.div_lt_iff_lt_mul hok.blockSize_pos]
    omega
  have hpos := hok.pos_lt
  rw [lt_stop_iff hok.blockSize_pos] at hi
  have hat' : r.at (i + 1) = (i + 1) * r.sb.blockSize := by
    rw [Reading.at]
    omega
  have hmax : r.at i = max r.pos (i * r.sb.blockSize) := rfl
  rw [hat', Nat.succ_mul, Reading.pieceLen]
  omega

theorem blockBytes_eq (hworks : ∀ offs n, dev.fails offs n = false) (hne : blk ≠ .error)
    (data : Mem) :
    blockBytes sb { dev with data } blk skip len =
      some (pieceBytes sb data blk.source skip len) := by
  cases blk with
  | error => exact absurd rfl hne
  | hole => rfl
  | «at» b =>
    rw [blockBytes, readData, hworks, if_neg (by decide)]
    rfl

/-- One turn of the loop. -/
theorem readBlocks_turn (hok : r.Ok) (hi : i < r.stop) (hstart : r.pos / r.sb.blockSize ≤ i)
    (data : Mem) :
    readBlocks r.sb { r.dev with data } r.fuel r.root r.pos (r.stop - i) i leftblks blk
        (r.fin - r.at i) =
      if (r.turn i leftblks blk).1 = .error then []
      else pieceBytes r.sb data (r.turn i leftblks blk).1.source (r.skipped i) (r.pieceLen i) ++
        readBlocks r.sb { r.dev with data } r.fuel r.root r.pos (r.stop - (i + 1)) (i + 1)
          (u32 ((r.turn i leftblks blk).2 - 1)) (r.turn i leftblks blk).1
          (r.fin - r.at (i + 1)) := by
  obtain ⟨hlen, hrest, -⟩ := at_succ hok hi hstart
  have hmin : (if r.fin - r.at i ≤ r.sb.blockSize - r.skipped i then r.fin - r.at i
      else r.sb.blockSize - r.skipped i) = r.pieceLen i := by
    rw [Reading.pieceLen]
    split <;> omega
  rw [show r.stop - i = r.stop - (i + 1) + 1 by omega, readBlocks, readExtentBlock_data,
    ← Reading.turn, ← Reading.skipped]
  dsimp only
  rw [hmin]
  split
  · rfl
  · rename_i hne
    rw [if_neg (by omega), blockBytes_eq hok.works hne]
    dsimp only
    rw [hrest]

/-- **A turn** reads right where its block is the one that the tree gives. -/
theorem turn_iff (hok : r.Ok) (hi : i < r.stop) (hstart : r.pos / r.sb.blockSize ≤ i) :
    r.Good i leftblks blk ↔
      (r.turn i leftblks blk).1 ≠ .error ∧
        (r.turn i leftblks blk).1.source = lookup (allExtents r.leaves) i ∧
        r.Good (i + 1) (u32 ((r.turn i leftblks blk).2 - 1)) (r.turn i leftblks blk).1 := by
  obtain ⟨hlen, hrest, hnext⟩ := at_succ hok hi hstart
  obtain ⟨hat, hskip⟩ := at_eq hok hstart
  have hle : r.pieceLen i ≤ r.fin - r.at i := Nat.min_le_left _ _
  have hfile : ∀ data, fileBytes r.sb data (allExtents r.leaves) (r.at i) (r.fin - r.at i) =
      pieceBytes r.sb data (lookup (allExtents r.leaves) i) (r.skipped i) (r.pieceLen i) ++
        fileBytes r.sb data (allExtents r.leaves) (r.at (i + 1)) (r.fin - r.at (i + 1)) := by
    intro data
    have hfit : r.skipped i + r.pieceLen i ≤ r.sb.blockSize := by
      rw [Reading.pieceLen]
      omega
    have hsplit : r.fin - r.at i = r.pieceLen i + (r.fin - r.at (i + 1)) := by omega
    rw [← fileBytes_block _ hfit, ← hat, hsplit, fileBytes_add]
    rcases Nat.eq_zero_or_pos (r.fin - r.at (i + 1)) with hzero | hmore
    · rw [hzero]
      rfl
    · rw [hnext (by omega)]
  rw [Reading.Good, Reading.Good]
  simp only [readBlocks_turn hok hi hstart, hfile]
  by_cases herror : (r.turn i leftblks blk).1 = .error
  · simp only [herror, if_pos]
    constructor
    · intro h
      have hlength := congrArg List.length (h fun _ => 0)
      rw [List.length_append, length_pieceBytes, List.length_nil] at hlength
      omega
    · exact fun h => absurd rfl h.1
  · simp only [herror, if_false]
    constructor
    · intro h
      have hparts := fun data => List.append_inj (h data)
        (by rw [length_pieceBytes, length_pieceBytes])
      exact ⟨herror, source_eq (Nat.ne_of_gt hlen) (Nat.ne_of_gt hok.blockSize_pos)
        fun data => (hparts data).1, fun data => (hparts data).2⟩
    · rintro ⟨-, hsource, hrest⟩ data
      rw [hsource, hrest data]

/-! ## §3 Runs -/

/-- The block some blocks further on in a run. -/
def Blk.advance : Blk → ℕ → Blk
  | .at blk, j => .at (blk + j)
  | blk, _ => blk

theorem advance_next (blk : Blk) (j : ℕ) : blk.next.advance j = blk.advance (j + 1) := by
  cases blk with
  | error => rfl
  | hole => rfl
  | «at» b => rw [Blk.next, Blk.advance, Blk.advance, Nat.add_assoc, Nat.add_comm 1]

theorem next_ne_error (h : blk ≠ .error) : blk.next ≠ .error := by
  cases blk with
  | error => exact absurd rfl h
  | hole => decide
  | «at» b => exact Blk.noConfusion

/-- Where a block is to be looked up, the one before does not matter. -/
theorem good_zero_iff (hok : r.Ok) (hstart : r.pos / r.sb.blockSize ≤ i) :
    r.Good i 0 blk ↔ r.Good i 0 .hole := by
  rcases Nat.lt_or_ge i r.stop with hlt | hge
  · rw [turn_iff hok hlt hstart, turn_iff hok hlt hstart]
    rfl
  · exact iff_of_true (good_of_stop_le hok hge) (good_of_stop_le hok hge)

theorem u32_pred {n : ℕ} (h : n < 4294967296) : u32 ((n + 1 : ℕ) - 1) = n :=
  u32_of_bounds (by omega) h

/-- **A run** of blocks that are as the tree gives them is read right, and then a block is looked up
    again. -/
theorem run_iff (hok : r.Ok) {n : ℕ} (hn : n < 4294967296) (hne : blk ≠ .error)
    (hrun : ∀ j < n, (blk.advance (j + 1)).source = lookup (allExtents r.leaves) (i + j))
    (hstart : r.pos / r.sb.blockSize ≤ i) :
    r.Good i n blk ↔ r.Good (i + n) 0 .hole := by
  induction n generalizing i blk with
  | zero => exact good_zero_iff hok hstart
  | succ n ih =>
    rcases Nat.lt_or_ge i r.stop with hlt | hge
    · have hturn : r.turn i (n + 1) blk = (blk.next, n + 1) := if_neg (Nat.succ_ne_zero n)
      have hfirst := hrun 0 (Nat.zero_lt_succ n)
      rw [← advance_next, Nat.add_zero] at hfirst
      have hnext : (blk.next.advance 0) = blk.next := by cases blk <;> rfl
      rw [hnext] at hfirst
      have hrest := ih (i := i + 1) (by omega) (next_ne_error hne)
        (fun j hj => by
          rw [advance_next, hrun (j + 1) (by omega), Nat.add_assoc, Nat.add_comm 1])
        (by omega)
      rw [turn_iff hok hlt hstart, hturn]
      dsimp only
      rw [u32_pred (by omega), hrest, Nat.add_assoc, Nat.add_comm 1]
      exact ⟨fun h => h.2.2, fun h => ⟨next_ne_error hne, hfirst, h⟩⟩
    · exact iff_of_true (good_of_stop_le hok hge) (good_of_stop_le hok (by omega))

/-- **A hole that runs on**: with more than what is left to read still to be counted, everything is
    read as a hole. -/
theorem endless_iff (hok : r.Ok) (hleft : r.stop - i ≤ leftblks) (hlt : leftblks < 4294967296)
    (hstart : r.pos / r.sb.blockSize ≤ i) :
    r.Good i leftblks .hole ↔
      ∀ b, i ≤ b → b < r.stop → lookup (allExtents r.leaves) b = none := by
  induction hn : r.stop - i generalizing i leftblks with
  | zero =>
    exact iff_of_true (good_of_stop_le hok (by omega)) fun b hlo hhi => absurd hhi (by omega)
  | succ n ih =>
    obtain ⟨left, rfl⟩ : ∃ left, leftblks = left + 1 := ⟨leftblks - 1, by omega⟩
    have hturn : r.turn i (left + 1) .hole = (.hole, left + 1) := if_neg (Nat.succ_ne_zero left)
    rw [turn_iff hok (by omega) hstart, hturn]
    dsimp only
    rw [u32_pred (by omega), ih (by omega) (by omega) (by omega) (by omega)]
    constructor
    · rintro ⟨-, hfirst, hrest⟩ b hlo hhi
      rcases Nat.eq_or_lt_of_le hlo with rfl | hmore
      · exact hfirst.symm
      · exact hrest b hmore hhi
    · intro h
      exact ⟨by decide, (h i (Nat.le_refl _) (by omega)).symm, fun b hlo hhi => h b (by omega) hhi⟩

/-! ## §4 Where reading goes right -/

/-- A block of the leaf is read right, and so is what follows: the last extent behind it is not an
    unwritten one that it would be taken for a block of, and where it is behind that extent there
    is one ahead. -/
def Leaf.plain (l : Leaf) (b : ℕ) : Prop :=
  ∀ e, (l.behind b).getLast? = some e →
    (b < e.block + e.len → ¬e.unwritten) ∧ (e.block + e.len ≤ b → l.ahead b ≠ [])

/-- A block behind all extents of the leaf, of which there are some. -/
def Leaf.trailing (l : Leaf) (b : ℕ) : Prop :=
  ∃ e, (l.behind b).getLast? = some e ∧ e.block + e.len ≤ b ∧ l.ahead b = []

/-- Up to the first block behind all extents of its leaf all blocks have a leaf and are plain, and
    from that one on all are holes or unwritten. -/
def Readable (leaves : List Leaf) (start stop : ℕ) : Prop :=
  ∃ t, start ≤ t ∧ (∀ b, start ≤ b → b < t → b < stop → ∃ l ∈ leaves, l.holds b ∧ l.plain b) ∧
    (t < stop → (∃ l ∈ leaves, l.holds t ∧ l.trailing t) ∧
      ∀ b, t ≤ b → b < stop → lookup (allExtents leaves) b = none)

variable {l : Leaf} {e : Extent}

/-- The extents behind and ahead are the same up to the next extent. -/
theorem Leaf.behind_eq (hle : i ≤ b) (hahead : ∀ f ∈ l.ahead i, b < f.block) :
    l.behind b = l.behind i ∧ l.ahead b = l.ahead i := by
  have hsplit := l.behind_append_ahead i
  have hbehind : ∀ f ∈ l.behind i, decide (f.block ≤ b) = true := fun f hf =>
    decide_eq_true (Nat.le_trans (Leaf.block_le_of_mem_behind hf) hle)
  have hnot : (l.ahead i).takeWhile (fun f => decide (f.block ≤ b)) = [] ∧
      (l.ahead i).dropWhile (fun f => decide (f.block ≤ b)) = l.ahead i := by
    rcases hcases : l.ahead i with _ | ⟨f, rest⟩
    · exact ⟨rfl, rfl⟩
    · have hlt := hahead f (by rw [hcases]; exact List.mem_cons_self)
      have hneg : ¬decide (f.block ≤ b) = true := by
        rw [decide_eq_true_eq]
        omega
      exact ⟨List.takeWhile_cons_of_neg hneg, List.dropWhile_cons_of_neg hneg⟩
  constructor
  · rw [Leaf.behind, ← hsplit, List.takeWhile_append_of_pos hbehind, hnot.1, List.append_nil]
  · rw [Leaf.ahead, ← hsplit, List.dropWhile_append_of_pos hbehind, hnot.2]

theorem Extent.size_le (e : Extent) : e.size ≤ e.len := by
  rw [Extent.size]
  split <;> omega

/-- The extent behind a block does not reach it. -/
def Leaf.past (l : Leaf) (b : ℕ) : Prop :=
  ∀ e, (l.behind b).getLast? = some e → e.block + e.len ≤ b

variable {d hi n : ℕ} {root : Mem} {leaves : List Leaf} {fuel : ℕ}

theorem Denotes.lookup_past {lo : ℕ} (h : Denotes sb dev d lo hi root leaves) (hl : l ∈ leaves)
    (hb : l.holds b) (hpast : l.past b) : lookup (allExtents leaves) b = none := by
  rw [h.lookup_eq hl hb]
  rcases hlast : (l.behind b).getLast? with _ | e
  · rfl
  · have hend := hpast e hlast
    have hsize := e.size_le
    exact if_neg fun hboth => absurd hboth.1 (by omega)

/-- What a lookup in a leaf starts: blocks that are as the tree gives them, all plain. -/
structure PlainRun (leaves : List Leaf) (l : Leaf) (i n : ℕ) (blk : Blk) : Prop where
  pos : 0 < n
  lt : n < 4294967296
  ne_error : blk ≠ .error
  source_eq : ∀ j < n, (blk.advance j).source = lookup (allExtents leaves) (i + j)
  holds : ∀ j < n, l.holds (i + j)
  plain : ∀ j < n, l.plain (i + j)

/-- A hole up to the next extent of the leaf. -/
theorem hole_run {f : Extent} {rest : List Extent}
    (h : Denotes sb dev d 0 4294967296 root leaves) (hl : l ∈ leaves) (hb : l.holds i)
    (hpast : l.past i) (hahead : l.ahead i = f :: rest) :
    PlainRun leaves l i (f.block - i) .hole := by
  obtain ⟨-, hhi, hvalid⟩ := h.range hl
  have hf : f ∈ l.ahead i := by
    rw [hahead]
    exact List.mem_cons_self
  have hmem : f ∈ l.extents := by
    rw [← l.behind_append_ahead i]
    exact List.mem_append_right _ hf
  have hlt := hvalid.lt_of_mem_ahead hf
  have hend := hvalid.le_hi f hmem
  have hsize := hvalid.pos f hmem
  have hfirst : ∀ g ∈ l.ahead i, f.block ≤ g.block := by
    intro g hg
    rw [hahead] at hg
    rcases List.mem_cons.mp hg with rfl | hrest
    · exact Nat.le_refl _
    · have hpairs := hvalid.inOrder
      rw [InOrder, ← l.behind_append_ahead i, hahead] at hpairs
      have hbehind := List.rel_of_pairwise_cons (List.pairwise_append.mp hpairs).2.1 hrest
      omega
  have hsame : ∀ j < f.block - i, l.behind (i + j) = l.behind i ∧ l.ahead (i + j) = l.ahead i :=
    fun j hj => Leaf.behind_eq (Nat.le_add_right _ _) fun g hg => by
      have hle := hfirst g hg
      omega
  have hlo := hb.1
  have hholds : ∀ j < f.block - i, l.holds (i + j) := fun j hj => ⟨by omega, by omega⟩
  have hpasts : ∀ j < f.block - i, l.past (i + j) := by
    intro j hj e he
    rw [(hsame j hj).1] at he
    have hle := hpast e he
    omega
  refine ⟨by omega, by omega, by decide, fun j hj => ?_, hholds, fun j hj e he => ⟨?_, ?_⟩⟩
  · exact (h.lookup_past hl (hholds j hj) (hpasts j hj)).symm
  · intro hin
    have hout := hpasts j hj e he
    omega
  · intro _
    rw [(hsame j hj).2, hahead]
    exact List.cons_ne_nil _ _

/-- The blocks of an extent from one on. -/
theorem extent_run (h : Denotes sb dev d 0 4294967296 root leaves) (hl : l ∈ leaves)
    (hb : l.holds i) (hlast : (l.behind i).getLast? = some e) (hin : i < e.block + e.len)
    (hwritten : ¬e.unwritten) :
    PlainRun leaves l i (e.len - (i - e.block)) (.at (i - e.block + e.start)) := by
  obtain ⟨-, hhi, hvalid⟩ := h.range hl
  have hbehind : e ∈ l.behind i := List.mem_of_getLast? hlast
  have hle := Leaf.block_le_of_mem_behind hbehind
  have hmem : e ∈ l.extents := by
    rw [← l.behind_append_ahead i]
    exact List.mem_append_left _ hbehind
  have hsize : e.size = e.len := if_neg hwritten
  have hend := hvalid.le_hi e hmem
  rw [hsize] at hend
  have hlo := hb.1
  have hsame : ∀ j < e.len - (i - e.block),
      l.behind (i + j) = l.behind i ∧ l.ahead (i + j) = l.ahead i :=
    fun j hj => Leaf.behind_eq (Nat.le_add_right _ _) fun g hg => by
      have hpairs := hvalid.inOrder
      rw [InOrder, ← l.behind_append_ahead i] at hpairs
      have hgap := (List.pairwise_append.mp hpairs).2.2 e hbehind g hg
      omega
  have hholds : ∀ j < e.len - (i - e.block), l.holds (i + j) := fun j hj => ⟨by omega, by omega⟩
  have hwritten' := hwritten
  rw [Extent.unwritten] at hwritten'
  refine ⟨by omega, by omega, Blk.noConfusion, fun j hj => ?_, hholds, fun j hj f hf => ?_⟩
  · rw [h.lookup_eq hl (hholds j hj), (hsame j hj).1, hlast]
    dsimp only
    rw [if_pos ⟨by omega, hwritten⟩, Blk.advance, Blk.source]
    congr 1
    omega
  · rw [(hsame j hj).1, hlast] at hf
    cases hf
    exact ⟨fun _ => hwritten, fun hout => absurd hout (by omega)⟩

theorem lastKey_of_ahead {f : Extent} {rest : List Extent} (hahead : l.ahead i = f :: rest)
    (next : ℕ) : l.lastKey i next = f.block := by
  rw [Leaf.lastKey, hahead]
  rfl

/-- A leaf without extents is looked up again for each block. -/
theorem empty_run (h : Denotes sb dev d 0 4294967296 root leaves) (hl : l ∈ leaves)
    (hb : l.holds i) (hpast : l.past i) (hlast : (l.behind i).getLast? = none) :
    PlainRun leaves l i 1 .hole := by
  have hzero : ∀ j < 1, i + j = i := fun j hj => by omega
  refine ⟨by decide, by decide, by decide, fun j hj => ?_, fun j hj => ?_, fun j hj e he => ?_⟩
  · rw [hzero j hj, h.lookup_past hl hb hpast]
    rfl
  · rw [hzero j hj]
    exact hb
  · rw [hzero j hj, hlast] at he
    cases he

/-- **Plain blocks**: the lookup starts a run. -/
theorem readExtentBlock_plain (h : Denotes sb dev d 0 4294967296 root leaves) (hfuel : d < fuel)
    (hl : l ∈ leaves) (hb : l.holds i) (hplain : l.plain i) :
    ∃ blk n, readExtentBlock sb dev fuel root i = (blk, n) ∧ PlainRun leaves l i n blk := by
  obtain ⟨-, hhi, hvalid⟩ := h.range hl
  have hlt : i < 4294967296 := Nat.lt_of_lt_of_le hb.2 hhi
  -- The count of a hole that ends where an extent starts.
  have hcount : ∀ f rest, l.ahead i = f :: rest → ∀ x : ℤ, x = f.block - i →
      u32 x = f.block - i := by
    intro f rest hahead x hx
    have hmem : f ∈ l.ahead i := by
      rw [hahead]
      exact List.mem_cons_self
    have hmem' : f ∈ l.extents := by
      rw [← l.behind_append_ahead i]
      exact List.mem_append_right _ hmem
    have habove := hvalid.lt_of_mem_ahead hmem
    have hend := hvalid.le_hi f hmem'
    have hsize := hvalid.pos f hmem'
    exact u32_of_bounds (by omega) (by omega)
  rw [readExtentBlock_eq h hfuel hl hb]
  rcases hlast : (l.behind i).getLast? with _ | e
  · have hpast : l.past i := fun e he => by
      rw [hlast] at he
      cases he
    refine ⟨_, _, rfl, ?_⟩
    rcases hahead : l.ahead i with _ | ⟨f, rest⟩
    · have hone : u32 (l.lastKey i (u32 (i + 1)) - i) = 1 := by
        rw [Leaf.lastKey, hahead, hlast, u32, u32]
        dsimp only [List.head?_nil, Option.map_none, Option.getD_none]
        omega
      rw [hone]
      exact empty_run h hl hb hpast hlast
    · rw [lastKey_of_ahead hahead, hcount f rest hahead _ rfl]
      exact hole_run h hl hb hpast hahead
  · have hle := Leaf.block_le_of_mem_behind (List.mem_of_getLast? hlast)
    dsimp only
    split
    · rename_i hout
      have hpast : l.past i := fun f hf => by
        rw [hlast] at hf
        cases hf
        omega
      obtain ⟨f, rest, hahead⟩ := List.exists_cons_of_ne_nil ((hplain e hlast).2 (by omega))
      refine ⟨_, _, rfl, ?_⟩
      rw [lastKey_of_ahead hahead, hcount f rest hahead _ (by omega)]
      exact hole_run h hl hb hpast hahead
    · rename_i hin
      exact ⟨_, _, rfl, extent_run h hl hb hlast (by omega) ((hplain e hlast).1 (by omega))⟩

/-- **Behind all extents of a leaf** the count of the hole never ends. -/
theorem readExtentBlock_trailing (h : Denotes sb dev d 0 4294967296 root leaves) (hfuel : d < fuel)
    (hl : l ∈ leaves) (hb : l.holds i) (htrailing : l.trailing i) :
    ∃ n, readExtentBlock sb dev fuel root i = (.hole, n) ∧
      4294967295 - i ≤ u32 (n - 1) ∧ u32 (n - 1) < 4294967296 := by
  obtain ⟨-, hhi, -⟩ := h.range hl
  have hlt : i < 4294967296 := Nat.lt_of_lt_of_le hb.2 hhi
  obtain ⟨e, hlast, hout, hahead⟩ := htrailing
  refine ⟨u32 (l.lastKey i (u32 (i + 1)) - (i - e.block : ℕ) - e.block), ?_, ?_, u32_lt _⟩
  · rw [readExtentBlock_eq h hfuel hl hb, hlast]
    exact if_pos (by omega)
  · rw [Leaf.lastKey, hahead, hlast, u32, u32]
    dsimp only [List.head?_nil, Option.map_none, Option.map_some, Option.getD_none,
      Option.getD_some]
    omega

/-- An unwritten extent is taken for a written one. -/
theorem readExtentBlock_unwritten (h : Denotes sb dev d 0 4294967296 root leaves)
    (hfuel : d < fuel) (hl : l ∈ leaves) (hb : l.holds i) (hlast : (l.behind i).getLast? = some e)
    (hin : i < e.block + e.len) (hunwritten : e.unwritten) :
    ((readExtentBlock sb dev fuel root i).1.source ≠ lookup (allExtents leaves) i) := by
  have hle := Leaf.block_le_of_mem_behind (List.mem_of_getLast? hlast)
  rw [readExtentBlock_eq h hfuel hl hb, h.lookup_eq hl hb, hlast]
  dsimp only
  rw [if_neg (by omega), if_neg fun hboth => hboth.2 hunwritten]
  exact Option.some_ne_none _

/-! ## §5 Reads -/

theorem not_plain_of_trailing (h : l.trailing b) : ¬l.plain b := by
  obtain ⟨e, hlast, hout, hahead⟩ := h
  exact fun hplain => (hplain e hlast).2 hout hahead

variable {stop : ℕ}

theorem readable_of_stop_le (h : stop ≤ i) : Readable leaves i stop :=
  ⟨i, Nat.le_refl _, fun _ hlo hhi _ => absurd hhi (by omega), fun hlt => absurd hlt (by omega)⟩

/-- Plain blocks in front do not matter. -/
theorem readable_run (h : Denotes sb dev d 0 4294967296 root leaves) (hl : l ∈ leaves)
    {n : ℕ} (hholds : ∀ j < n, l.holds (i + j)) (hplain : ∀ j < n, l.plain (i + j)) :
    Readable leaves i stop ↔ Readable leaves (i + n) stop := by
  constructor
  · rintro ⟨t, hle, hbefore, hafter⟩
    rcases Nat.lt_or_ge t (i + n) with hin | hout
    · rcases Nat.lt_or_ge t stop with hlt | hge
      · obtain ⟨⟨l', hl', hb', htrailing⟩, -⟩ := hafter hlt
        obtain ⟨j, rfl⟩ : ∃ j, t = i + j := ⟨t - i, by omega⟩
        obtain rfl := h.holds_unique hl hl' (hholds j (by omega)) hb'
        exact absurd (hplain j (by omega)) (not_plain_of_trailing htrailing)
      · exact readable_of_stop_le (by omega)
    · exact ⟨t, hout, fun b hlo => hbefore b (by omega), hafter⟩
  · rintro ⟨t, hle, hbefore, hafter⟩
    refine ⟨t, by omega, fun b hlo hhi hlt => ?_, hafter⟩
    rcases Nat.lt_or_ge b (i + n) with hin | hout
    · obtain ⟨j, rfl⟩ : ∃ j, b = i + j := ⟨b - i, by omega⟩
      exact ⟨l, hl, hholds j (by omega), hplain j (by omega)⟩
    · exact hbefore b hout hhi hlt

/-- A block that is not plain and not behind all extents of its leaf is one of an unwritten
    extent, for the code. -/
theorem plain_or_trailing_or_unwritten (l : Leaf) (b : ℕ) :
    l.plain b ∨ l.trailing b ∨
      ∃ e, (l.behind b).getLast? = some e ∧ b < e.block + e.len ∧ e.unwritten := by
  rcases hlast : (l.behind b).getLast? with _ | e
  · left
    intro e he
    rw [hlast] at he
    cases he
  · by_cases hin : b < e.block + e.len
    · by_cases hunwritten : e.unwritten
      · exact Or.inr (Or.inr ⟨e, rfl, hin, hunwritten⟩)
      · left
        intro f hf
        rw [hlast] at hf
        cases hf
        exact ⟨fun _ => hunwritten, fun hout => absurd hout (by omega)⟩
    · by_cases hahead : l.ahead b = []
      · exact Or.inr (Or.inl ⟨e, hlast, by omega, hahead⟩)
      · left
        intro f hf
        rw [hlast] at hf
        cases hf
        exact ⟨fun hlt => absurd hlt hin, fun _ => hahead⟩

/-- A block at which a read has to be plain or behind all extents of its leaf. -/
theorem Readable.first (hread : Readable leaves i stop) (hlt : i < stop) :
    ∃ l ∈ leaves, l.holds i ∧ (l.plain i ∨ l.trailing i) := by
  obtain ⟨t, hle, hbefore, hafter⟩ := hread
  rcases Nat.eq_or_lt_of_le hle with rfl | hmore
  · obtain ⟨⟨l, hl, hb, htrailing⟩, -⟩ := hafter hlt
    exact ⟨l, hl, hb, Or.inr htrailing⟩
  · obtain ⟨l, hl, hb, hplain⟩ := hbefore i (Nat.le_refl _) hmore hlt
    exact ⟨l, hl, hb, Or.inl hplain⟩

/-- **What is left of a read is read right** exactly where it is readable. -/
theorem good_iff_readable (hok : r.Ok) (h : Denotes r.sb r.dev d 0 4294967296 r.root r.leaves)
    (hfuel : d < r.fuel) (hstop : r.stop ≤ 4294967295) (hstart : r.pos / r.sb.blockSize ≤ i) :
    r.Good i 0 .hole ↔ Readable r.leaves i r.stop := by
  induction hn : r.stop - i using Nat.strongRecOn generalizing i with
  | ind n ih =>
    rcases Nat.lt_or_ge i r.stop with hlt | hge
    · have hturn : r.turn i 0 .hole = readExtentBlock r.sb r.dev r.fuel r.root i := if_pos rfl
      rw [turn_iff hok hlt hstart, hturn]
      by_cases hleaf : ∃ l ∈ r.leaves, l.holds i
      · obtain ⟨l, hl, hb⟩ := hleaf
        rcases plain_or_trailing_or_unwritten l i with hplain | htrailing | ⟨e, hlast, hin, hunw⟩
        · obtain ⟨blk, n, heq, hrun⟩ := readExtentBlock_plain h hfuel hl hb hplain
          obtain ⟨k, rfl⟩ : ∃ k, n = k + 1 := ⟨n - 1, by have hpos := hrun.pos; omega⟩
          have hfirst := hrun.source_eq 0 hrun.pos
          have hzero : blk.advance 0 = blk := by cases blk <;> rfl
          rw [hzero, Nat.add_zero] at hfirst
          have hk := hrun.lt
          have hrest := run_iff (i := i + 1) hok (Nat.lt_of_succ_lt hk) hrun.ne_error
            (fun j hj => by
              rw [hrun.source_eq (j + 1) (by omega), Nat.add_assoc, Nat.add_comm 1]) (by omega)
          rw [heq]
          dsimp only
          rw [u32_pred (by omega), hrest, readable_run h hl hrun.holds hrun.plain,
            ← ih _ (by omega) (i := i + (k + 1)) (by omega) rfl, Nat.add_assoc, Nat.add_comm 1]
          exact ⟨fun hgood => hgood.2.2, fun hgood => ⟨hrun.ne_error, hfirst, hgood⟩⟩
        · obtain ⟨n, heq, hcount, hcount'⟩ := readExtentBlock_trailing h hfuel hl hb htrailing
          rw [heq]
          dsimp only
          rw [endless_iff hok (by omega) hcount' (by omega)]
          constructor
          · rintro ⟨-, hfirst, hrest⟩
            refine ⟨i, Nat.le_refl _, fun b hlo hhi _ => absurd hhi (by omega),
              fun _ => ⟨⟨l, hl, hb, htrailing⟩, fun b hlo hhi => ?_⟩⟩
            rcases Nat.eq_or_lt_of_le hlo with rfl | hmore
            · exact hfirst.symm
            · exact hrest b hmore hhi
          · rintro ⟨t, hle, hbefore, hafter⟩
            rcases Nat.eq_or_lt_of_le hle with rfl | hmore
            · have hnone := (hafter hlt).2
              exact ⟨by decide, (hnone i (Nat.le_refl _) hlt).symm,
                fun b hlo hhi => hnone b (by omega) hhi⟩
            · obtain ⟨l', hl', hb', hplain⟩ := hbefore i (Nat.le_refl _) hmore hlt
              obtain rfl := h.holds_unique hl hl' hb hb'
              exact absurd hplain (not_plain_of_trailing htrailing)
        · refine iff_of_false (fun hgood => ?_) fun hread => ?_
          · exact readExtentBlock_unwritten h hfuel hl hb hlast hin hunw hgood.2.1
          · obtain ⟨l', hl', hb', hcase⟩ := hread.first hlt
            obtain rfl := h.holds_unique hl hl' hb hb'
            rcases hcase with hplain | ⟨f, hf, hout, -⟩
            · exact (hplain e hlast).1 hin hunw
            · rw [hlast] at hf
              cases hf
              omega
      · have hno : ∀ l ∈ r.leaves, ¬l.holds i := fun l hl hb => hleaf ⟨l, hl, hb⟩
        rw [readExtentBlock_error h hfuel (by omega) hno]
        refine iff_of_false (fun hgood => hgood.1 rfl) fun hread => ?_
        obtain ⟨l, hl, hb, -⟩ := hread.first hlt
        exact hno l hl hb
    · exact iff_of_true (good_of_stop_le hok hge) (readable_of_stop_le hge)

/-- A read of nothing. -/
theorem readBlocks_zero {pos : ℕ} (n i left : ℕ) (blk : Blk) :
    readBlocks sb dev fuel root pos n i left blk 0 = [] := by
  cases n with
  | zero => rfl
  | succ n =>
    rw [readBlocks]
    dsimp only
    rw [if_pos (Nat.zero_le _), if_pos rfl, ite_self]

/-- A turn puts at most a block into the buffer. -/
theorem length_readBlocks {pos : ℕ} (dev : Device) (hworks : ∀ offs n, dev.fails offs n = false)
    (n i left : ℕ) (blk : Blk) (size : ℕ) :
    (readBlocks sb dev fuel root pos n i left blk size).length ≤ n * sb.blockSize := by
  induction n generalizing i left blk size with
  | zero => exact Nat.zero_le _
  | succ n ih =>
    rw [readBlocks, Nat.succ_mul]
    generalize (if left = 0 then readExtentBlock sb dev fuel root i else (blk.next, left)) = turn
    obtain ⟨blk', left'⟩ := turn
    dsimp only
    split
    · exact Nat.zero_le _
    · rename_i hne
      generalize (if i = pos / sb.blockSize then pos % sb.blockSize else 0) = skip
      have hlen : (if size ≤ sb.blockSize - skip then size else sb.blockSize - skip) ≤
          sb.blockSize := by
        split <;> omega
      generalize (if size ≤ sb.blockSize - skip then size else sb.blockSize - skip) = len at hlen
      have hbytes : blockBytes sb dev blk' skip len =
          some (pieceBytes sb dev.data blk'.source skip len) :=
        blockBytes_eq hworks hne dev.data
      split
      · exact Nat.zero_le _
      · rw [hbytes]
        dsimp only
        rw [List.length_append, length_pieceBytes, Nat.add_comm]
        exact Nat.add_le_add (ih _ _ _ _) hlen

/-- **Files in extents.**  For a sorted tree of any depth a read gives the bytes of the file,
    whatever the disk holds as its data, exactly where it ends in the first 4 GiB and its blocks
    are readable. -/
theorem ext2ReadFile1_exact {pos size : ℕ} (hworks : ∀ offs n, dev.fails offs n = false)
    (hbs : 1024 ≤ sb.blockSize) (hbs' : sb.blockSize ≤ 65536)
    (h : Denotes sb dev d 0 4294967296 root leaves) (hfuel : d < fuel) (hpos : pos < 4294967296)
    (hsize : size < 4294967296) :
    (∀ data, ext2ReadFile1 sb { dev with data } fuel root size pos =
        fileBytes sb data (allExtents leaves) pos size) ↔
      size = 0 ∨ pos + size + sb.blockSize ≤ 4294967296 ∧
        Readable leaves (pos / sb.blockSize) ((pos + size + sb.blockSize - 1) / sb.blockSize) := by
  have hnear := Nat.lt_div_mul_add (a := pos) (b := sb.blockSize) (by omega)
  have hfloor := Nat.div_mul_le_self pos sb.blockSize
  rcases Nat.eq_zero_or_pos size with rfl | hmore
  · exact iff_of_true (fun data => readBlocks_zero _ _ _ _) (Or.inl rfl)
  rcases Nat.lt_or_ge 4294967296 (pos + size + sb.blockSize) with hwrap | hfits
  · -- The end wraps around: too few blocks are read.
    refine iff_of_false (fun hread => ?_) fun hor => by omega
    have hle : (ext2ReadFile1 sb { dev with data := fun _ => 0 } fuel root size pos).length ≤
        (u32 (pos + size + sb.blockSize - 1) / sb.blockSize - pos / sb.blockSize) *
          sb.blockSize := length_readBlocks { dev with data := fun _ => 0 } hworks _ _ _ _ _
    have hend := Nat.div_mul_le_self (u32 (pos + size + sb.blockSize - 1)) sb.blockSize
    have hcut : u32 (pos + size + sb.blockSize - 1) + 4294967296 ≤
        pos + size + sb.blockSize - 1 := by
      rw [u32]
      omega
    rw [hread, length_fileBytes, Nat.sub_mul] at hle
    omega
  · have hok : Reading.Ok ⟨sb, dev, fuel, root, leaves, pos, pos + size⟩ :=
      ⟨hworks, Nat.lt_of_lt_of_le (by decide) hbs, Nat.lt_add_of_pos_right hmore⟩
    have hcut : u32 (pos + size + sb.blockSize - 1) = pos + size + sb.blockSize - 1 :=
      u32_of_bounds (by omega) (by omega)
    have hstop : (pos + size + sb.blockSize - 1) / sb.blockSize ≤ 4294967295 :=
      Nat.le_trans (Nat.div_le_self _ _) (by omega)
    have hat : max pos (pos / sb.blockSize * sb.blockSize) = pos := Nat.max_eq_left hfloor
    have hgood := good_iff_readable (i := pos / sb.blockSize) hok h hfuel hstop (Nat.le_refl _)
    simp only [Reading.Good, Reading.stop, Reading.at] at hgood
    rw [hat, Nat.add_sub_cancel_left] at hgood
    simp only [ext2ReadFile1, hcut]
    rw [hgood]
    constructor
    · exact fun hread => Or.inr ⟨hfits, hread⟩
    · rintro (hzero | ⟨-, hread⟩)
      · omega
      · exact hread

/-! ## §6 A gap between two leaves -/

/-- Two leaves: the first is for two blocks and has the first one of them, the second has the third
    block. -/
def gapLeaves : List Leaf := [⟨0, 2, [⟨0, 1, 20⟩]⟩, ⟨2, 4294967296, [⟨2, 1, 21⟩]⟩]

def gapRoot : Mem := fun a =>
  [0x0a, 0xf3, 2, 0, 4, 0, 1, 0, 0, 0, 0, 0, 0, 0, 0, 0, 10, 0, 0, 0, 0, 0, 0, 0,
    2, 0, 0, 0, 11, 0, 0, 0, 0, 0, 0, 0].getD a 0

/-- A leaf of one block. -/
def gapLeaf (block start : UInt8) : Mem := fun a =>
  [0x0a, 0xf3, 1, 0, 84, 0, 0, 0, 0, 0, 0, 0, block, 0, 0, 0, 1, 0, 0, 0, start, 0, 0, 0].getD a 0

/-- The index blocks 10 and 11, and a 7 everywhere in block 21. -/
def gapDisk : Mem := fun a =>
  if a / 1024 = 10 then gapLeaf 0 20 (a % 1024)
  else if a / 1024 = 11 then gapLeaf 2 21 (a % 1024)
  else if a / 1024 = 21 then 7 else 0

def gapSuper : Super := ⟨1024, 0⟩

def gapDevice : Device := ⟨gapDisk, gapDisk, fun _ _ => false⟩

theorem valid_singleton (h : 0 < e.size) (hlo : a ≤ e.block) (hhi : e.block + e.size ≤ b) :
    Leaf.Valid ⟨a, b, [e]⟩ where
  inOrder := List.pairwise_singleton _ _
  pos := by simpa using h
  lo_le := by simpa using hlo
  le_hi := by simpa using hhi

theorem storesLeaf_gap {node : Mem} (hmagic : ehMagic node = extMagic)
    (hentries : ehEntries node = 1) (hdepth : ehDepth node = 0)
    (hblock : eeBlock node 0 = e.block) (hlen : eeLen node 0 = e.len)
    (hstart : eeStart node 0 = e.start) : StoresLeaf node [e] where
  magic := hmagic
  entries := hentries
  depth := hdepth
  extent := by
    intro i hi
    obtain rfl : i = 0 := by
      rw [List.length_singleton] at hi
      omega
    exact ⟨hblock, hlen, hstart⟩

theorem gap_first : ∃ node, readNode gapSuper gapDevice (eiLeaf gapRoot 0) = some node ∧
    Denotes gapSuper gapDevice 0 0 2 node [⟨0, 2, [⟨0, 1, 20⟩]⟩] :=
  ⟨_, rfl, _, storesLeaf_gap (by decide) (by decide) (by decide) (by decide) (by decide)
    (by decide), valid_singleton (by decide) (by decide) (by decide), rfl⟩

theorem gap_second : ∃ node, readNode gapSuper gapDevice (eiLeaf gapRoot 1) = some node ∧
    Denotes gapSuper gapDevice 0 2 4294967296 node [⟨2, 4294967296, [⟨2, 1, 21⟩]⟩] :=
  ⟨_, rfl, _, storesLeaf_gap (by decide) (by decide) (by decide) (by decide) (by decide)
    (by decide), valid_singleton (by decide) (by decide) (by decide), rfl⟩

theorem gap_denotes : Denotes gapSuper gapDevice 1 0 4294967296 gapRoot gapLeaves := by
  refine ⟨by decide, by decide, [(0, [⟨0, 2, [⟨0, 1, 20⟩]⟩]), (2, [⟨2, 4294967296, [⟨2, 1, 21⟩]⟩])],
    by decide, by decide, rfl, fun i hi => ?_⟩
  rcases i with _ | _ | i
  · exact ⟨rfl, Nat.zero_le _, Nat.zero_le _, gap_first⟩
  · exact ⟨rfl, Nat.zero_le _, (by decide : 2 ≤ 4294967296), gap_second⟩
  · exact absurd hi (Nat.not_lt_of_le (Nat.le_add_left 2 i))

theorem gap_readable : Readable gapLeaves 0 1 := by
  refine ⟨1, by decide, fun b _ hb _ => ?_, fun h => absurd h (by decide)⟩
  obtain rfl : b = 0 := by omega
  refine ⟨_, List.mem_cons_self, ⟨by decide, by decide⟩, fun e he => ?_⟩
  obtain rfl : e = ⟨0, 1, 20⟩ := Option.some.inj he.symm
  exact ⟨fun _ => by decide, fun h => absurd h (by decide)⟩

/-- The first block is read right. -/
theorem ext2ReadFile1_exact_first :
    ext2ReadFile1 gapSuper gapDevice 2 gapRoot 1024 0 =
      fileBytes gapSuper gapDisk (allExtents gapLeaves) 0 1024 :=
  (ext2ReadFile1_exact (fun _ _ => rfl) (by decide) (by decide) gap_denotes (by decide)
    (by decide) (by decide)).mpr (Or.inr ⟨by decide, gap_readable⟩) gapDisk

/-- **A hole that hides a leaf**: the second block is a hole at the end of its leaf, and the third
    is read as zeros though it is on the disk. -/
theorem hole_runs_on :
    Denotes gapSuper gapDevice 1 0 4294967296 gapRoot gapLeaves ∧
      ext2ReadFile1 gapSuper gapDevice 2 gapRoot 2 2047 = [0, 0] ∧
      fileBytes gapSuper gapDisk (allExtents gapLeaves) 2047 2 = [0, 7] :=
  ⟨gap_denotes, by decide, by decide⟩

end Pmon.Fs.Ext2
