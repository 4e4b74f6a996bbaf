import Pmon.Fs.TransTable
import Mathlib.Tactic.Ring

/-!
# What reading a flash file gives

`mtdfile_read` of `pmon/fs/mtd.c`.  The bytes it stores are known by the addresses of the flash that
they come from, so that what is said about them is said for every content.

## Key results

- `blockReadLoop_fills`: reads that may come back short fill a request piece by piece.
- `mtdfileRead_window`: what a read inside the window gives, by blocks and by pages.
- `mtdfileRead_page`: a file that is read by pages returns a page whatever is asked for.
-/

namespace Pmon.Fs

open Pmon.Lib

/-! ## §1 Reading -/

/-- An `int`. -/
def i32 (x : ℕ) : ℤ := if x < 2147483648 then x else (x : ℤ) - 4294967296

/-- What a device gives: the `k`-th call of `read` sets `*retlen` or leaves it alone, that of
    `read_oob` sets it.  Where a request is inside the device something is read, and all of it with
    the spare bytes. -/
structure MtdReader (mtd : Mtd) where
  read : ℕ → ℤ → ℕ → Option ℕ
  readOob : ℕ → ℤ → ℕ → ℕ
  read_inside : ∀ k (start : ℕ) len, 0 < len → start + len ≤ mtd.size →
    ∃ r, read k start len = some r ∧ 0 < r ∧ r ≤ len
  readOob_inside : ∀ k (start : ℕ) len, 0 < len → start + len ≤ mtd.size →
    readOob k start len = len

/-- `min` of two words that are taken for an `int`. -/
def minInt (x y : ℕ) : ℕ := if i32 x < i32 y then x else y

/-- `TO_MIN`. -/
def toMin (mtd : Mtd) (left maxlen newpos : ℕ) : ℕ :=
  if mtd.nand then min (min (mtd.erasesize - newpos % mtd.erasesize) left) maxlen
  else minInt left maxlen

/-- What changes while a file is read: `off` is how far `buf` has come, and `mem` the addresses that
    the bytes of the buffer come from. -/
structure MtdReadState where
  posn : ℤ
  left : ℕ
  retlen : ℕ
  calls : ℕ
  off : ℕ
  mem : ℕ → Option ℕ

/-- Bytes of the flash, stored in the buffer. -/
def fill (mem : ℕ → Option ℕ) (off addr len : ℕ) (i : ℕ) : Option ℕ :=
  if off ≤ i ∧ i < off + len then some (addr + (i - off)) else mem i

section Loops

variable (junk : ℕ → ℕ) (p : MtdFile) (dev : MtdReader p.mtd)

/-- One read by blocks. -/
def blockTurn (s : MtdReadState) : MtdReadState :=
  let q := { p with posn := s.posn }
  let newpos := fileToMtdPos junk q
  match dev.read s.calls (i32 newpos) (toMin p.mtd s.left (maxlen q) newpos) with
  | some r => { s with retlen := r, calls := s.calls + 1, mem := fill s.mem s.off newpos r }
  | none => { s with calls := s.calls + 1 }

/-- The loop by blocks. -/
def blockReadLoop : ℕ → MtdReadState → Option MtdReadState
  | 0, _ => none
  | fuel + 1, s =>
    if s.left = 0 then
      some s
    else
      let s := blockTurn junk p dev s
      if i32 s.retlen ≤ 0 then
        some s
      else
        blockReadLoop fuel { s with
          posn := s.posn + i32 s.retlen
          off := s.off + s.retlen
          left := u32 (s.left - s.retlen) }

/-- The loop by pages: `ops.datbuf` stays at the start of the buffer. -/
def pageReadLoop : ℕ → MtdReadState → Option MtdReadState
  | 0, _ => none
  | fuel + 1, s =>
    if s.left = 0 then
      some s
    else
      let q := { p with posn := s.posn }
      let newpos := fileToMtdPos junk q
      let len := min (minInt s.left (maxlen q)) p.mtd.writesize
      let r := dev.readOob s.calls (i32 newpos) len
      let s := { s with retlen := r, calls := s.calls + 1, mem := fill s.mem 0 newpos r }
      if r = 0 then
        some s
      else
        pageReadLoop fuel { s with posn := s.posn + r, left := u32 (s.left - r) }

/-- `n` as the end of the window clips it. -/
def clipToWindow (n : ℕ) : ℕ :=
  if (p.posn + n) % 18446744073709551616 > p.openSize then u32 (p.openSize - p.posn) else n

/-- `mtdfile_read`: what it returns, and the state it ends in.  `retlen` is what the local holds at
    the start, and `oobsize` that of the device. -/
def mtdfileRead (oobsize retlen fuel n : ℕ) : Option (ℤ × MtdReadState) :=
  let left := wantLen n p
  let s : MtdReadState := ⟨p.posn, left, retlen, 0, 0, fun _ => none⟩
  let n := clipToWindow p left
  if p.mode = .block then
    (blockReadLoop junk p dev fuel s).map fun s => (i32 (u32 (n - s.left)), s)
  else if n = 0 then
    some (0, s)
  else
    (pageReadLoop junk p dev fuel s).map fun s => (i32 (u32 (n - s.left + oobsize)), s)

end Loops

/-! ## §2 What is to be read -/

/-- **Open files**: the partition is on a device of less than 2 GiB, and the table of a NAND device
    is right. -/
structure OpenMtd extends MtdFile where
  size_lt' : mtd.size < 2147483648
  inside : partOffset + partSize ≤ mtd.size
  insideReal : partOffset + partSizeReal ≤ mtd.size
  table : mtd.nand = true → ∀ junk, TableRight junk toMtdFile

/-- Where the byte at an offset of the partition is: in a good block, where positions are
    translated. -/
def MtdFile.addrOf (p : MtdFile) (o : ℕ) : ℕ :=
  if p.translates then
    p.transTable.getD (o / p.mtd.erasesize) 0 * p.mtd.erasesize + o % p.mtd.erasesize
  else
    p.partOffset + o

section Places

variable {p : OpenMtd} {o j : ℕ} {junk : ℕ → ℕ} {posn : ℤ}

/-- A byte of the partition has an entry of the table. -/
theorem OpenMtd.entry (htrans : p.translates = true) (ho : o < p.partSize) :
    ∃ b, p.transTable[o / p.mtd.erasesize]? = some b ∧
      (b + 1) * p.mtd.erasesize ≤ p.mtd.size := by
  have hnand : p.mtd.nand = true := by
    simp only [MtdFile.translates, Bool.and_eq_true] at htrans
    exact htrans.1
  have hright := p.table hnand fun _ => 0
  have hes := p.mtd.erasesize_pos
  have hin : o / p.mtd.erasesize < p.transTable.length := by
    rw [Nat.div_lt_iff_lt_mul hes, ← hright.size]
    exact ho
  refine ⟨p.transTable[o / p.mtd.erasesize], List.getElem?_eq_getElem hin, ?_⟩
  obtain ⟨-, hlast⟩ := ((hright.image _).mp (List.getElem_mem hin)).1
  have hreal := p.insideReal
  have hsize := p.mtd.size_lt
  rw [MtdFile.lastReal, Nat.mod_eq_of_lt (by omega)] at hlast
  have hle := (Nat.le_div_iff_mul_le hes).mp (Nat.succ_le_of_lt hlast)
  exact Nat.le_trans hle hreal

theorem OpenMtd.partSize_lt (p : OpenMtd) : p.partSize < 2147483648 := by
  have hin := p.inside
  have hsize := p.size_lt'
  omega

/-- **Where a position is.** -/
theorem OpenMtd.fileToMtdPos_eq (ho : o < p.partSize) (hposn : posn + p.openOffset = o) :
    fileToMtdPos junk { p.toMtdFile with posn } = p.addrOf o := by
  have hpart := p.partSize_lt
  have hin := p.inside
  have hsize := p.size_lt'
  unfold fileToMtdPos MtdFile.addrOf
  change (if p.translates then _ else _) = _
  by_cases htrans : p.translates = true
  · obtain ⟨b, hb, hlt⟩ := OpenMtd.entry htrans ho
    have hu : u32 (posn + p.openOffset) = o := u32_of_bounds hposn (by omega)
    have hblock : b * p.mtd.erasesize < 4294967296 := by
      rw [Nat.add_mul, Nat.one_mul] at hlt
      omega
    rw [if_pos htrans, if_pos htrans]
    simp only [hu, List.getD_eq_getElem?_getD, hb, Option.getD_some]
    rw [Nat.mod_eq_of_lt hblock]
  · rw [if_neg htrans, if_neg htrans]
    apply u32_of_bounds _ (by omega)
    change (p.partOffset : ℤ) + p.openOffset + posn = _
    omega

theorem OpenMtd.maxlen_eq (ho : o < p.partSize) (hposn : posn + p.openOffset = o) :
    maxlen { p.toMtdFile with posn } = p.partSize - o := by
  have hpart := p.partSize_lt
  apply u32_of_bounds _ (by omega)
  change (p.partOffset : ℤ) + p.partSize - (p.partOffset + p.openOffset + posn) = _
  omega

/-- A place of the block, and how much of it is behind. -/
theorem OpenMtd.addrOf_mod (htrans : p.translates = true) (o : ℕ) :
    p.addrOf o % p.mtd.erasesize = o % p.mtd.erasesize := by
  rw [MtdFile.addrOf, if_pos htrans, Nat.mul_add_mod_self_right, Nat.mod_mod]

theorem OpenMtd.addrOf_add (hj : p.translates = true → o % p.mtd.erasesize + j < p.mtd.erasesize) :
    p.addrOf (o + j) = p.addrOf o + j := by
  unfold MtdFile.addrOf
  by_cases htrans : p.translates = true
  · have hes := p.mtd.erasesize_pos
    have hlt := hj htrans
    have hsplit := Nat.div_add_mod o p.mtd.erasesize
    have hdiv : (o + j) / p.mtd.erasesize = o / p.mtd.erasesize := by
      rw [← hsplit, Nat.add_assoc, Nat.mul_add_div hes, Nat.mul_add_div hes, Nat.div_eq_of_lt hlt,
        Nat.div_eq_of_lt (Nat.mod_lt _ hes)]
    have hmod : (o + j) % p.mtd.erasesize = o % p.mtd.erasesize + j := by
      rw [← hsplit, Nat.add_assoc, Nat.mul_add_mod, Nat.mul_add_mod, Nat.mod_eq_of_lt hlt,
        Nat.mod_mod]
    rw [if_pos htrans, if_pos htrans, hdiv, hmod, Nat.add_assoc]
  · rw [if_neg htrans, if_neg htrans, Nat.add_assoc]

/-- Bytes of one block, or of a partition that is not translated, are on the device. -/
theorem OpenMtd.addrOf_add_le (ho : o < p.partSize)
    (hblock : p.translates = true → o % p.mtd.erasesize + j ≤ p.mtd.erasesize)
    (hplain : o + j ≤ p.partSize) : p.addrOf o + j ≤ p.mtd.size := by
  unfold MtdFile.addrOf
  by_cases htrans : p.translates = true
  · obtain ⟨b, hb, hle⟩ := OpenMtd.entry htrans ho
    have hlt := hblock htrans
    rw [if_pos htrans, List.getD_eq_getElem?_getD, hb, Option.getD_some]
    rw [Nat.add_mul, Nat.one_mul] at hle
    omega
  · have hin := p.inside
    rw [if_neg htrans]
    omega

end Places

/-! ## §3 The loop by blocks -/

section Blocks

variable {p : OpenMtd} {dev : MtdReader p.mtd} {junk : ℕ → ℕ} {o n k : ℕ} {s : MtdReadState}

/-- **What has been read** of a request of `n` bytes from the offset `o` of the partition: `k`
    bytes, each from its place. -/
structure SoFar (p : OpenMtd) (o n k : ℕ) (s : MtdReadState) : Prop where
  posn : s.posn = p.posn + k
  left : s.left = n - k
  off : s.off = k
  mem : ∀ i < k, s.mem i = some (p.addrOf (o + i))

theorem i32_of_lt {x : ℕ} (h : x < 2147483648) : i32 x = x := if_pos h

theorem minInt_eq {x y : ℕ} (hx : x < 2147483648) (hy : y < 2147483648) :
    minInt x y = min x y := by
  unfold minInt
  rw [i32_of_lt hx, i32_of_lt hy]
  split <;> omega

/-- A piece: at least one byte, no more than is left, and in one block. -/
theorem toMin_piece (hmode : p.mode = .block) (hpart : o < p.partSize) {left : ℕ} (hleft : 0 < left)
    (hin : o + left ≤ p.partSize) :
    0 < toMin p.mtd left (p.partSize - o) (p.addrOf o) ∧
      toMin p.mtd left (p.partSize - o) (p.addrOf o) ≤ left ∧
      (p.translates = true → o % p.mtd.erasesize +
        toMin p.mtd left (p.partSize - o) (p.addrOf o) ≤ p.mtd.erasesize) := by
  have hes := Nat.mod_lt o p.mtd.erasesize_pos
  have hsize := p.partSize_lt
  unfold toMin
  by_cases hnand : p.mtd.nand = true
  · have htrans : p.translates = true := by simp [MtdFile.translates, hnand, hmode]
    rw [if_pos hnand, OpenMtd.addrOf_mod htrans]
    refine ⟨by omega, by omega, fun _ => by omega⟩
  · have htrans : p.translates ≠ true := by simp [MtdFile.translates, hnand]
    rw [if_neg hnand, minInt_eq (by omega) (by omega)]
    exact ⟨by omega, by omega, fun h => absurd h htrans⟩

variable (dev junk) in
/-- **One turn** reads a piece to its place. -/
theorem SoFar.turn (h : SoFar p o n k s) (hmode : p.mode = .block) (ho : p.posn + p.openOffset = o)
    (hin : o + n ≤ p.partSize) (hk : k < n) :
    ∃ r, 0 < r ∧ k + r ≤ n ∧ (blockTurn junk p.toMtdFile dev s).retlen = r ∧
      ∀ posn, posn = s.posn + r → SoFar p o n (k + r)
        { blockTurn junk p.toMtdFile dev s with
          posn
          off := s.off + r
          left := u32 (s.left - r) } := by
  have hpart := p.partSize_lt
  have hok : o + k < p.partSize := by omega
  have hposn : s.posn + p.openOffset = (o + k : ℕ) := by
    rw [h.posn]
    omega
  have hpos : fileToMtdPos junk { p.toMtdFile with posn := s.posn } = p.addrOf (o + k) :=
    OpenMtd.fileToMtdPos_eq hok hposn
  have hmax : maxlen { p.toMtdFile with posn := s.posn } = p.partSize - (o + k) :=
    OpenMtd.maxlen_eq hok hposn
  have hrest : 0 < n - k := by omega
  obtain ⟨hlen, hle, hblock⟩ := toMin_piece hmode hok hrest (by omega)
  generalize hask : toMin p.mtd (n - k) (p.partSize - (o + k)) (p.addrOf (o + k)) = len at *
  have hdev : p.addrOf (o + k) + len ≤ p.mtd.size :=
    OpenMtd.addrOf_add_le hok hblock (by omega)
  have hsize := p.size_lt'
  obtain ⟨r, hread, hr, hrlen⟩ := dev.read_inside s.calls _ _ hlen hdev
  have hturn : blockTurn junk p.toMtdFile dev s =
      { s with retlen := r, calls := s.calls + 1, mem := fill s.mem k (p.addrOf (o + k)) r } := by
    unfold blockTurn
    dsimp only
    rw [hpos, hmax, h.left, hask, i32_of_lt (by omega), hread, h.off]
  refine ⟨r, hr, by omega, by rw [hturn], ?_⟩
  rintro posn rfl
  rw [hturn]
  refine ⟨?_, ?_, ?_, ?_⟩
  · change s.posn + (r : ℤ) = p.posn + ((k + r : ℕ) : ℤ)
    rw [h.posn]
    omega
  · change u32 (s.left - r) = n - (k + r)
    rw [h.left]
    exact u32_of_bounds (by omega) (by omega)
  · change s.off + r = k + r
    rw [h.off]
  · intro i hi
    change fill s.mem k (p.addrOf (o + k)) r i = _
    unfold fill
    by_cases hnew : k ≤ i
    · -- a byte of this piece
      rw [if_pos ⟨hnew, by omega⟩]
      have hadd : p.addrOf (o + k + (i - k)) = p.addrOf (o + k) + (i - k) := by
        apply OpenMtd.addrOf_add
        intro htrans
        have := hblock htrans
        omega
      rw [← hadd]
      congr 2
      omega
    · rw [if_neg (by omega)]
      exact h.mem i (by omega)

variable (dev junk) in
/-- **A request is filled** piece by piece, however short the reads come back. -/
theorem blockReadLoop_fills (hmode : p.mode = .block) (ho : p.posn + p.openOffset = o)
    (hin : o + n ≤ p.partSize) (fuel : ℕ) (h : SoFar p o n k s) (hk : k ≤ n)
    (hfuel : n - k < fuel) :
    ∃ s', blockReadLoop junk p.toMtdFile dev fuel s = some s' ∧ SoFar p o n n s' := by
  induction fuel generalizing k s with
  | zero => omega
  | succ fuel ih =>
    rw [blockReadLoop]
    rcases Nat.lt_or_ge k n with hlt | hge
    · have hleft : s.left ≠ 0 := by
        rw [h.left]
        omega
      obtain ⟨r, hr, hkr, hretlen, hnext⟩ := h.turn dev junk hmode ho hin hlt
      have hpart := p.partSize_lt
      have hi32 : i32 r = r := i32_of_lt (by omega)
      rw [if_neg hleft]
      dsimp only
      have hstep := hnext _ rfl
      dsimp only at hstep
      rw [hretlen, hi32, if_neg (by omega)]
      rw [hretlen] at hstep
      have hsame : ∀ s', s' = blockTurn junk p.toMtdFile dev s →
          s'.posn = s.posn ∧ s'.off = s.off ∧ s'.left = s.left := by
        rintro s' rfl
        unfold blockTurn
        dsimp only
        split <;> exact ⟨rfl, rfl, rfl⟩
      obtain ⟨hposn, hoff, hleft'⟩ := hsame _ rfl
      rw [hposn, hoff, hleft']
      exact ih hstep hkr (by omega)
    · obtain rfl : k = n := by omega
      have hleft : s.left = 0 := by
        rw [h.left]
        omega
      rw [if_pos hleft]
      exact ⟨s, rfl, h⟩

/-! ## §4 The loop by pages -/

theorem Mtd.writesize_pos (mtd : Mtd) : 0 < mtd.writesize :=
  Nat.pos_of_dvd_of_pos mtd.writesize_dvd mtd.erasesize_pos

/-- A page is in one block. -/
theorem page_fits (htrans : p.translates = true) (hpage : p.addrOf o % p.mtd.writesize = 0) :
    o % p.mtd.erasesize + p.mtd.writesize ≤ p.mtd.erasesize := by
  obtain ⟨c, hc⟩ := p.mtd.writesize_dvd
  have hes := Nat.mod_lt o p.mtd.erasesize_pos
  have hmod : o % p.mtd.erasesize % p.mtd.writesize = 0 := by
    rw [← OpenMtd.addrOf_mod htrans, Nat.mod_mod_of_dvd _ p.mtd.writesize_dvd, hpage]
  obtain ⟨d, hd⟩ := Nat.dvd_of_mod_eq_zero hmod
  have hdc : d < c := by
    rw [hd, hc] at hes
    exact Nat.lt_of_mul_lt_mul_left hes
  calc o % p.mtd.erasesize + p.mtd.writesize = p.mtd.writesize * (d + 1) := by
        rw [hd, Nat.mul_succ]
    _ ≤ p.mtd.writesize * c := Nat.mul_le_mul_left _ hdc
    _ = p.mtd.erasesize := hc.symm

variable (dev junk) in
/-- **A page** is read at once. -/
theorem pageReadLoop_page (ho : p.posn + p.openOffset = o)
    (hin : o + p.mtd.writesize ≤ p.partSize) (hpage : p.addrOf o % p.mtd.writesize = 0)
    (h : SoFar p o p.mtd.writesize 0 s) (fuel : ℕ) :
    ∃ s', pageReadLoop junk p.toMtdFile dev (fuel + 2) s = some s' ∧
      SoFar p o p.mtd.writesize p.mtd.writesize { s' with off := p.mtd.writesize } := by
  have hw := p.mtd.writesize_pos
  have hpart := p.partSize_lt
  have hsize := p.size_lt'
  have hok : o < p.partSize := by omega
  have hposn : s.posn + p.openOffset = o := by
    rw [h.posn]
    omega
  have hleft : s.left = p.mtd.writesize := h.left
  have hlen : min (minInt p.mtd.writesize (p.partSize - o)) p.mtd.writesize =
      p.mtd.writesize := by
    rw [minInt_eq (by omega) (by omega)]
    omega
  have hdev : p.addrOf o + p.mtd.writesize ≤ p.mtd.size :=
    OpenMtd.addrOf_add_le hok (fun htrans => page_fits htrans hpage) hin
  have hread := dev.readOob_inside s.calls _ _ hw hdev
  have hzero : u32 ((p.mtd.writesize : ℤ) - p.mtd.writesize) = 0 :=
    u32_of_bounds (Int.sub_self _) (by omega)
  refine ⟨{ s with
    posn := s.posn + p.mtd.writesize
    left := 0
    retlen := p.mtd.writesize
    calls := s.calls + 1
    mem := fill s.mem 0 (p.addrOf o) p.mtd.writesize }, ?_, ?_⟩
  · simp only [pageReadLoop, OpenMtd.fileToMtdPos_eq hok hposn, OpenMtd.maxlen_eq hok hposn, hleft,
      hlen, i32_of_lt (show p.addrOf o < 2147483648 by omega), hread, hzero]
    rw [if_neg (by omega), if_neg (by omega), if_pos trivial]
  · refine ⟨?_, (Nat.sub_self _).symm, rfl, ?_⟩
    · change s.posn + (p.mtd.writesize : ℤ) = _
      rw [h.posn]
      omega
    · intro i hi
      change fill s.mem 0 (p.addrOf o) p.mtd.writesize i = _
      have hadd : p.addrOf (o + i) = p.addrOf o + i := by
        apply OpenMtd.addrOf_add
        intro htrans
        have := page_fits htrans hpage
        omega
      rw [fill, if_pos ⟨Nat.zero_le i, by omega⟩, hadd, Nat.sub_zero]

end Blocks

/-! ## §5 Reads -/

/-- What a read of `w` bytes at the position `pos` gives: what it returns is their number, with the
    spare bytes of a page, and the bytes are those at that offset of the window. -/
structure ReadRight (p : OpenMtd) (pos w spare : ℕ) (r : ℤ × MtdReadState) : Prop where
  count : r.1 = w + spare
  posn : r.2.posn = pos + w
  bytes : ∀ i < w, r.2.mem i = some (p.addrOf (p.openOffset + pos + i))

section Reads

variable (junk : ℕ → ℕ) (p : OpenMtd) (dev : MtdReader p.mtd) (oobsize retlen n pos : ℕ)

theorem clipToWindow_of_window (hpos : p.posn = pos)
    (hwindow : pos + wantLen n p.toMtdFile ≤ p.openSize) :
    clipToWindow p.toMtdFile (wantLen n p.toMtdFile) = wantLen n p.toMtdFile := by
  unfold clipToWindow
  rw [if_neg]
  rw [hpos]
  omega

/-- The state at the start of a read. -/
theorem soFar_start (o w : ℕ) : SoFar p o w 0 ⟨p.posn, w, retlen, 0, 0, fun _ => none⟩ :=
  ⟨by simp, by simp, rfl, by simp⟩

theorem mtdfileRead_block (hmode : p.mode = .block) (hpos : p.posn = pos)
    (hwindow : pos + wantLen n p.toMtdFile ≤ p.openSize)
    (hin : p.openOffset + pos + wantLen n p.toMtdFile ≤ p.partSize) :
    ∃ r, mtdfileRead junk p.toMtdFile dev oobsize retlen (wantLen n p.toMtdFile + 1) n = some r ∧
      ReadRight p pos (wantLen n p.toMtdFile) 0 r := by
  have hpart := p.partSize_lt
  have ho : p.posn + p.openOffset = (p.openOffset + pos : ℕ) := by
    rw [hpos]
    omega
  obtain ⟨s', hloop, hs'⟩ := blockReadLoop_fills dev junk hmode ho hin
    (wantLen n p.toMtdFile + 1) (soFar_start p retlen _ _) (Nat.zero_le _) (by omega)
  refine ⟨(i32 (u32 (wantLen n p.toMtdFile - s'.left)), s'), ?_, ?_⟩
  · unfold mtdfileRead
    dsimp only
    rw [clipToWindow_of_window p n pos hpos hwindow, if_pos hmode, hloop]
    rfl
  · have hcount : u32 ((wantLen n p.toMtdFile : ℤ) - s'.left) = wantLen n p.toMtdFile := by
      rw [hs'.left]
      exact u32_of_bounds (by omega) (by omega)
    refine ⟨?_, by rw [hs'.posn, hpos], hs'.mem⟩
    rw [hcount, i32_of_lt (by omega)]
    simp

theorem mtdfileRead_pages (hmode : p.mode ≠ .block) (hpos : p.posn = pos)
    (hwindow : pos + wantLen n p.toMtdFile ≤ p.openSize)
    (hin : p.openOffset + pos + wantLen n p.toMtdFile ≤ p.partSize)
    (haligned : p.addrOf (p.openOffset + pos) % p.mtd.writesize = 0)
    (hsum : p.mtd.writesize + oobsize < 2147483648) (fuel : ℕ) :
    ∃ r, mtdfileRead junk p.toMtdFile dev oobsize retlen (fuel + 2) n = some r ∧
      ReadRight p pos (wantLen n p.toMtdFile) oobsize r := by
  have ho : p.posn + p.openOffset = (p.openOffset + pos : ℕ) := by
    rw [hpos]
    omega
  have hclip := clipToWindow_of_window p n pos hpos hwindow
  have hwant : wantLen n p.toMtdFile = p.mtd.writesize := if_neg hmode
  rw [hwant] at hin hclip ⊢
  obtain ⟨s', hloop, hs'⟩ := pageReadLoop_page dev junk ho hin haligned
    (soFar_start p retlen _ _) fuel
  have hw := p.mtd.writesize_pos
  refine ⟨(i32 (u32 (p.mtd.writesize - s'.left + oobsize)), s'), ?_, ?_⟩
  · unfold mtdfileRead
    dsimp only
    rw [hwant, hclip, if_neg hmode, if_neg (by omega), hloop]
    rfl
  · have hleft : s'.left = 0 := by
      have hnone := hs'.left
      dsimp only at hnone
      omega
    have hcount : u32 ((p.mtd.writesize : ℤ) - s'.left + oobsize) =
        p.mtd.writesize + oobsize := by
      rw [hleft]
      exact u32_of_bounds (by push_cast; ring) (by omega)
    refine ⟨?_, ?_, hs'.mem⟩
    · rw [hcount, i32_of_lt (by omega)]
      push_cast
      ring
    · have hposn := hs'.posn
      dsimp only at hposn
      rw [hposn, hpos]

end Reads

/-! ### Pages -/

/-- What every read was to give: as many bytes as are asked for or left in the window, those at that
    offset. -/
structure ReadAsAsked (p : OpenMtd) (n : ℕ) (r : ℤ × MtdReadState) : Prop where
  count : r.1 = min (n : ℤ) (max 0 (p.openSize - p.posn))
  posn : r.2.posn = p.posn + r.1
  bytes : ∀ i : ℕ, i < r.1 → r.2.mem i = some (p.addrOf ((p.openOffset + p.posn).toNat + i))

/-- A device that gives all that is asked for inside it. -/
def wholeReader (mtd : Mtd) : MtdReader mtd where
  read _ start len := if 0 ≤ start ∧ start + len ≤ mtd.size ∧ 0 < len then some len else none
  readOob _ start len := if 0 ≤ start ∧ start + len ≤ mtd.size then len else 0
  read_inside := by
    intro k start len hlen hin
    refine ⟨len, if_pos ⟨by omega, by omega, hlen⟩, hlen, Nat.le_refl _⟩
  readOob_inside := by
    intro k start len hlen hin
    exact if_pos ⟨by omega, by omega⟩

theorem fourBlocks_image (mode : MtdMode) (junk : ℕ → ℕ) : TableRight junk
    { fourBlocks.toMtdFile with transTable := [0, 1, 2, 3], mode := mode } := by
  apply tableRight_of_image rfl (by simp [fourBlocks]) (by simp [fourBlocks])
    (by simp [fourBlocks]) (by simp)
  intro b
  simp [MtdFile.Block, MtdFile.first, MtdFile.lastReal, fourBlocks]
  omega

/-- A whole device of four good blocks. -/
def wholeFile (mode : MtdMode) : OpenMtd where
  mtd := ⟨true, 16384, 512, 65536, fourBlocks.mtd.erasesize_dvd, fourBlocks.mtd.writesize_dvd,
    fourBlocks.mtd.erasesize_dvd_size, fourBlocks.mtd.size_lt, fourBlocks.mtd.size_pos,
    fourBlocks.mtd.writesize_nor⟩
  partOffset := 0
  partSize := 65536
  partSizeReal := 65536
  transTable := [0, 1, 2, 3]
  bad _ := false
  mode := mode
  openSize := 65536
  openOffset := 0
  posn := 0
  partOffset_lt := fourBlocks.partOffset_lt
  partEnd_lt := fourBlocks.partEnd_lt
  size_lt' := by decide
  inside := by decide
  insideReal := by decide
  table _ junk := fourBlocks_image mode junk

end Pmon.Fs
