import Pmon.Fs.Mtd

/-!
# What writing a flash file erases and programs

Nothing but the blocks that a write covers is in question: `mtdfile_write` looks neither at the
end of the window, nor at the erase blocks that its ranges share with others, nor at how many
good blocks are left.

## Key results

- `turn_inside`: what one turn of a loop erases and programs.
- `mtdfileWrite_inside`: exactly when a write stays in its window, where programs succeed and
  where they may fail.
- `write_behind_window`: a window of one block, and a write of two.
-/

namespace Pmon.Fs

open Pmon.Lib

variable {p q : MtdFile} {mtd : Mtd} {b n len start left x : ℕ} {ops : List FlashOp}

/-! ## §1 Windows -/

/-- The erase block is a block of the partition, of the device and of the window. -/
structure MtdFile.Owns (p : MtdFile) (b : ℕ) : Prop where
  offset_le : p.partOffset ≤ b * p.mtd.erasesize
  le_part : (b + 1) * p.mtd.erasesize ≤ p.partOffset + p.partSizeReal
  le_size : (b + 1) * p.mtd.erasesize ≤ p.mtd.size
  /-- Where positions are translated the window is one of entries of the table. -/
  window : if p.translates then
      ∃ k, p.transTable[k]? = some b ∧ p.openOffset ≤ k * p.mtd.erasesize ∧
        (k + 1) * p.mtd.erasesize ≤ p.openOffset + p.openSize
    else p.partOffset + p.openOffset ≤ b * p.mtd.erasesize ∧
      (b + 1) * p.mtd.erasesize ≤ p.partOffset + p.openOffset + p.openSize

/-- Every byte that is erased or programmed is one of a block of the window. -/
def MtdFile.Inside (p : MtdFile) (ops : List FlashOp) : Prop :=
  ∀ op ∈ ops, ∀ x, op.addr ≤ x → x < op.addr + op.len → p.Owns (x / p.mtd.erasesize)

/-- Rounding up to whole erase blocks. -/
def Mtd.ceil (mtd : Mtd) (x : ℕ) : ℕ := (x + (mtd.erasesize - 1)) / mtd.erasesize * mtd.erasesize

/-- The end of what a program, and the erase in front of it, covers. -/
def Mtd.reach (mtd : Mtd) (start len : ℕ) : ℕ :=
  if len = 0 then 0
  else if mtd.ceil start < start + len then mtd.ceil start + mtd.ceil len
  else mtd.ceil start

/-- The erase blocks from the one of an address on are blocks of the window. -/
def MtdFile.Covers (p : MtdFile) (start stop : ℕ) : Prop :=
  ∀ x, start / p.mtd.erasesize * p.mtd.erasesize ≤ x → x < stop → p.Owns (x / p.mtd.erasesize)

theorem inside_append {ops' : List FlashOp} :
    p.Inside (ops ++ ops') ↔ p.Inside ops ∧ p.Inside ops' := by
  constructor
  · intro h
    exact ⟨fun op hop => h op (List.mem_append_left _ hop),
      fun op hop => h op (List.mem_append_right _ hop)⟩
  · rintro ⟨hleft, hright⟩ op hop
    rcases List.mem_append.mp hop with hmem | hmem
    · exact hleft op hmem
    · exact hright op hmem

theorem inside_cons {op : FlashOp} :
    p.Inside (op :: ops) ↔
      (∀ x, op.addr ≤ x → x < op.addr + op.len → p.Owns (x / p.mtd.erasesize)) ∧ p.Inside ops :=
  List.forall_mem_cons

theorem inside_nil : p.Inside [] := fun _ hop => absurd hop List.not_mem_nil

/-- The window does not move with the position. -/
theorem MtdFile.Inside.of_posn {posn : ℤ} (h : ({ p with posn } : MtdFile).Inside ops) :
    p.Inside ops := by
  intro op hop x hlo hhi
  obtain ⟨hoffset, hpart, hsize, hwindow⟩ := h op hop x hlo hhi
  exact ⟨hoffset, hpart, hsize, hwindow⟩

/-! ## §2 Rounding -/

theorem le_ceil (mtd : Mtd) (x : ℕ) : x ≤ mtd.ceil x := by
  have hpos := mtd.erasesize_pos
  have hlt := Nat.lt_div_mul_add (a := x + (mtd.erasesize - 1)) hpos
  rw [Mtd.ceil]
  omega

theorem ceil_le (mtd : Mtd) (x : ℕ) :
    mtd.ceil x ≤ x / mtd.erasesize * mtd.erasesize + mtd.erasesize := by
  have hpos := mtd.erasesize_pos
  have hlt : x < x / mtd.erasesize * mtd.erasesize + mtd.erasesize := Nat.lt_div_mul_add hpos
  have hdiv : (x + (mtd.erasesize - 1)) / mtd.erasesize < x / mtd.erasesize + 2 := by
    rw [Nat.div_lt_iff_lt_mul hpos, Nat.add_mul]
    omega
  calc mtd.ceil x ≤ (x / mtd.erasesize + 1) * mtd.erasesize :=
        Nat.mul_le_mul_right _ (by omega)
    _ = x / mtd.erasesize * mtd.erasesize + mtd.erasesize := by rw [Nat.add_mul, Nat.one_mul]

/-- The addresses up to the next block border are of one block. -/
theorem div_eq_of_lt_ceil (hlo : start / mtd.erasesize * mtd.erasesize ≤ x)
    (hhi : x < start / mtd.erasesize * mtd.erasesize + mtd.erasesize) :
    x / mtd.erasesize = start / mtd.erasesize := by
  refine Nat.div_eq_of_lt_le hlo ?_
  rw [Nat.add_mul, Nat.one_mul]
  exact hhi

theorem size_add_le (mtd : Mtd) : mtd.size + mtd.erasesize ≤ 4294967296 := by
  obtain ⟨c, hc⟩ := mtd.erasesize_dvd_size
  obtain ⟨d, hd⟩ := mtd.erasesize_dvd
  have hlt := mtd.size_lt
  rw [hc, hd] at hlt
  have hcd : c + 1 ≤ d := Nat.lt_of_mul_lt_mul_left hlt
  calc mtd.size + mtd.erasesize = mtd.erasesize * (c + 1) := by rw [hc, Nat.mul_add, Nat.mul_one]
    _ ≤ mtd.erasesize * d := Nat.mul_le_mul_left _ hcd
    _ = 4294967296 := hd.symm

theorem roundUp_eq (h : x ≤ mtd.size) : roundUp mtd.erasesize x = mtd.ceil x := by
  have hsize := size_add_le mtd
  have hpos := mtd.erasesize_pos
  rw [roundUp, Mtd.ceil, Nat.mod_eq_of_lt (by omega)]

/-- What is of a block of the device is on the device. -/
theorem MtdFile.Owns.lt_size (h : p.Owns (x / p.mtd.erasesize)) : x < p.mtd.size := by
  have hlt : x < x / p.mtd.erasesize * p.mtd.erasesize + p.mtd.erasesize :=
    Nat.lt_div_mul_add p.mtd.erasesize_pos
  have hle := h.le_size
  rw [Nat.add_mul, Nat.one_mul] at hle
  omega

/-! ## §3 Turns -/

theorem eraseFirst_eq (hstart : start ≤ mtd.size) (hend : start + len ≤ mtd.size) :
    eraseFirst mtd start len =
      if mtd.ceil start < start + len then [.erase (mtd.ceil start) (mtd.ceil len)] else [] := by
  have hsize := mtd.size_lt
  have hle := le_ceil mtd start
  rw [eraseFirst, roundUp_eq hstart, roundUp_eq (x := len) (by omega), Nat.mod_eq_of_lt (by omega)]
  simp only [hle, true_and]

theorem eraseFirst_zero : eraseFirst mtd start 0 = [] := by
  have hmod := Nat.mod_le start 4294967296
  rw [eraseFirst, Nat.add_zero, if_neg (by omega)]

theorem le_reach (mtd : Mtd) (start : ℕ) (h : len ≠ 0) : start + len ≤ mtd.reach start len := by
  have hstart := le_ceil mtd start
  have hlen := le_ceil mtd len
  rw [Mtd.reach, if_neg h]
  split <;> omega

/-- The addresses that a covered program ends in are on the device. -/
theorem MtdFile.Covers.fits (h : p.Covers start (p.mtd.reach start len)) (hlen : len ≠ 0) :
    p.Owns (start / p.mtd.erasesize) ∧ start + len ≤ p.mtd.size := by
  have hdown := Nat.div_mul_le_self start p.mtd.erasesize
  have hreach := le_reach p.mtd start hlen
  refine ⟨h start hdown (by omega), ?_⟩
  have hlast := (h (start + len - 1) (by omega) (by omega)).lt_size
  omega

/-- **A turn** that programs stays inside exactly where all that it covers is. -/
theorem turn_inside :
    p.Inside (eraseFirst p.mtd start len ++ [.program start len]) ↔
      p.Covers start (p.mtd.reach start len) := by
  have hdown := Nat.div_mul_le_self start p.mtd.erasesize
  by_cases hlen : len = 0
  · subst hlen
    rw [eraseFirst_zero, Mtd.reach, if_pos rfl]
    refine ⟨fun _ x _ hx => absurd hx (Nat.not_lt_zero x), fun _ => inside_cons.mpr ⟨?_, inside_nil⟩⟩
    intro x hlo hhi
    exact absurd hhi (by dsimp only [FlashOp.addr, FlashOp.len] at hlo ⊢; omega)
  · have hceil := ceil_le p.mtd start
    constructor
    · intro h
      obtain ⟨herase, hprogram⟩ := inside_append.mp h
      obtain ⟨hprogram, -⟩ := inside_cons.mp hprogram
      dsimp only [FlashOp.addr, FlashOp.len] at hprogram
      have hstart := hprogram start (Nat.le_refl _) (by omega)
      have hend := (hprogram (start + len - 1) (by omega) (by omega)).lt_size
      have hsize := hstart.lt_size
      rw [eraseFirst_eq (by omega) (by omega)] at herase
      intro x hlo hhi
      rcases Nat.lt_or_ge x (p.mtd.ceil start) with hblock | hbehind
      · rw [div_eq_of_lt_ceil hlo (by omega)]
        exact hstart
      · rw [Mtd.reach, if_neg hlen] at hhi
        split at hhi
        · rename_i hmore
          rw [if_pos hmore] at herase
          exact (inside_cons.mp herase).1 x hbehind hhi
        · omega
    · intro h
      obtain ⟨hstart, hend⟩ := h.fits hlen
      have hsize := hstart.lt_size
      have hreach := le_reach p.mtd start hlen
      rw [eraseFirst_eq (by omega) hend]
      refine inside_append.mpr ⟨?_, inside_cons.mpr ⟨fun x hlo hhi => ?_, inside_nil⟩⟩
      · split
        · rename_i hmore
          refine inside_cons.mpr ⟨fun x hlo hhi => ?_, inside_nil⟩
          dsimp only [FlashOp.addr, FlashOp.len] at hlo hhi
          have hle := le_ceil p.mtd start
          refine h x (by omega) ?_
          rw [Mtd.reach, if_neg hlen, if_pos hmore]
          exact hhi
        · exact inside_nil
      · dsimp only [FlashOp.addr, FlashOp.len] at hlo hhi
        exact h x (by omega) (by omega)

/-- Marking a block as bad erases from the next block border on. -/
theorem markBad_inside (h : p.Inside (markBad p.mtd start)) :
    p.Covers start (p.mtd.ceil start + p.mtd.erasesize) := by
  obtain ⟨hmark, hrest⟩ := inside_cons.mp h
  obtain ⟨herase, -⟩ := inside_cons.mp hrest
  dsimp only [FlashOp.addr, FlashOp.len] at hmark herase
  have hstart := hmark start (Nat.le_refl _) (by omega)
  have hsize := hstart.lt_size
  have hceil := ceil_le p.mtd start
  rw [roundUp_eq (by omega)] at herase
  intro x hlo hhi
  rcases Nat.lt_or_ge x (p.mtd.ceil start) with hblock | hbehind
  · rw [div_eq_of_lt_ceil hlo (by omega)]
    exact hstart
  · exact herase x hbehind hhi

theorem inside_markBad (h : p.Covers start (p.mtd.ceil start + p.mtd.erasesize)) :
    p.Inside (markBad p.mtd start) := by
  have hdown := Nat.div_mul_le_self start p.mtd.erasesize
  have hpos := p.mtd.erasesize_pos
  have hle := le_ceil p.mtd start
  have hwrite := Nat.le_of_dvd hpos p.mtd.writesize_dvd
  have hstart := h start hdown (by omega)
  have hsize := hstart.lt_size
  rw [markBad, roundUp_eq (by omega)]
  refine inside_cons.mpr ⟨fun x hlo hhi => ?_, inside_cons.mpr ⟨fun x hlo hhi => ?_,
    inside_cons.mpr ⟨fun x hlo hhi => ?_, inside_nil⟩⟩⟩ <;>
    dsimp only [FlashOp.addr, FlashOp.len] at hlo hhi
  · exact h x (by omega) (by omega)
  · exact h x (by omega) (by omega)
  · have hlt : start < start / p.mtd.erasesize * p.mtd.erasesize + p.mtd.erasesize :=
      Nat.lt_div_mul_add hpos
    exact h x (by omega) (by omega)

/-! ## §4 Places -/

variable {junk : ℕ → ℕ} {posn : ℤ}

/-- Where a position is on the device, if it has an entry of the table. -/
def MtdFile.placeAt (p : MtdFile) (posn : ℤ) : Option ℕ :=
  if p.translates then
    p.transTable[u32 (posn + p.openOffset) / p.mtd.erasesize]?.map fun b =>
      b * p.mtd.erasesize % 4294967296 + u32 (posn + p.openOffset) % p.mtd.erasesize
  else some (u32 (p.partOffset + p.openOffset + posn))

theorem fileToMtdPos_of_place {a : ℕ} (h : p.placeAt p.posn = some a) : fileToMtdPos junk p = a := by
  rw [MtdFile.placeAt] at h
  rw [fileToMtdPos]
  split at h
  · rename_i htranslates
    obtain ⟨b, hb, rfl⟩ := Option.map_eq_some_iff.mp h
    rw [if_pos htranslates]
    dsimp only
    rw [List.getD_eq_getElem?_getD, hb, Option.getD_some]
  · rename_i hplain
    rw [if_neg hplain]
    exact Option.some.inj h

/-- Behind the table may stand the block behind the device. -/
def Mtd.behind (mtd : Mtd) : ℕ → ℕ := fun _ => mtd.size / mtd.erasesize

theorem size_le_fileToMtdPos (h : p.placeAt p.posn = none) :
    p.mtd.size ≤ fileToMtdPos p.mtd.behind p := by
  have hsize := p.mtd.size_lt
  rw [MtdFile.placeAt] at h
  rw [fileToMtdPos]
  split at h
  · rename_i htranslates
    rw [if_pos htranslates]
    dsimp only
    rw [List.getD_eq_getElem?_getD, Option.map_eq_none_iff.mp h, Option.getD_none, Mtd.behind,
      Nat.div_mul_cancel p.mtd.erasesize_dvd_size, Nat.mod_eq_of_lt hsize]
    exact Nat.le_add_right _ _
  · cases h

/-- A piece of a write covers blocks of the window only. -/
def MtdFile.PieceFits (p : MtdFile) (posn : ℤ) (len : ℕ) : Prop :=
  len = 0 ∨ ∃ a, p.placeAt posn = some a ∧ p.Covers a (p.mtd.reach a len)

theorem covers_zero : p.Covers start (p.mtd.reach start 0) := by
  rw [Mtd.reach, if_pos rfl]
  exact fun x _ hx => absurd hx (Nat.not_lt_zero x)

theorem MtdFile.PieceFits.covers (h : p.PieceFits posn len) (junk : ℕ → ℕ) :
    p.Covers (fileToMtdPos junk { p with posn })
      (p.mtd.reach (fileToMtdPos junk { p with posn }) len) := by
  rcases h with rfl | ⟨a, hplace, hcovers⟩
  · exact covers_zero
  · rw [fileToMtdPos_of_place (p := { p with posn }) hplace]
    exact hcovers

theorem pieceFits_of_covers
    (h : ∀ junk, p.Covers (fileToMtdPos junk { p with posn })
      (p.mtd.reach (fileToMtdPos junk { p with posn }) len)) : p.PieceFits posn len := by
  by_cases hlen : len = 0
  · exact Or.inl hlen
  · right
    rcases hplace : p.placeAt posn with _ | a
    · have hbehind := size_le_fileToMtdPos (p := { p with posn }) hplace
      have hfits := ((h p.mtd.behind).fits hlen).2
      dsimp only at hbehind
      omega
    · refine ⟨a, rfl, ?_⟩
      have hcovers := h fun _ => 0
      rwa [fileToMtdPos_of_place (p := { p with posn }) hplace] at hcovers

/-! ## §5 Programs that succeed -/

theorem mtdWriteLoop_block {oks : List Bool} (hmode : p.mode = .block) (hleft : left ≠ 0)
    (hlen : progLen left p ≠ 0) :
    mtdWriteLoop junk (true :: oks) left p =
      eraseFirst p.mtd (fileToMtdPos junk p) (progLen left p) ++
        [.program (fileToMtdPos junk p) (progLen left p)] ++
        mtdWriteLoop junk oks (left - progLen left p)
          { p with posn := p.posn + progLen left p } := by
  rw [mtdWriteLoop, if_neg hleft]
  dsimp only
  rw [if_pos rfl, if_neg hlen, if_pos hmode]

/-- On NAND every turn programs an erase block. -/
theorem blockLoop_inside (hmode : p.mode = .block) (hnand : p.mtd.nand = true) (k left : ℕ)
    (posn : ℤ) :
    p.Inside (mtdWriteLoop junk (List.replicate k true) left { p with posn }) ↔
      ∀ j < k, j * p.mtd.erasesize < left →
        p.Covers (fileToMtdPos junk { p with posn := posn + (j * p.mtd.erasesize : ℕ) })
          (p.mtd.reach (fileToMtdPos junk { p with posn := posn + (j * p.mtd.erasesize : ℕ) })
            p.mtd.erasesize) := by
  have hpos := p.mtd.erasesize_pos
  induction k generalizing left posn with
  | zero => exact ⟨fun _ j hj => absurd hj (Nat.not_lt_zero j), fun _ => inside_nil⟩
  | succ k ih =>
    have hlen : progLen left { p with posn } = p.mtd.erasesize := by
      rw [progLen, if_pos hmode, if_pos hnand]
    rw [List.replicate_succ]
    by_cases hleft : left = 0
    · rw [mtdWriteLoop, if_pos hleft]
      exact ⟨fun _ j _ hj => absurd hj (by omega), fun _ => inside_nil⟩
    · rw [mtdWriteLoop_block (p := { p with posn }) hmode hleft (by omega), hlen, inside_append]
      refine (and_congr (turn_inside (p := p)) (ih (left - p.mtd.erasesize) _)).trans ?_
      constructor
      · rintro ⟨hfirst, hrest⟩ j hj hjleft
        cases j with
        | zero =>
          rw [Nat.zero_mul, Int.natCast_zero, Int.add_zero]
          exact hfirst
        | succ j =>
          rw [Nat.add_mul, Nat.one_mul] at hjleft
          have hpiece := hrest j (by omega) (by omega)
          rw [show posn + ((j + 1) * p.mtd.erasesize : ℕ) =
            posn + p.mtd.erasesize + (j * p.mtd.erasesize : ℕ) by
              rw [Nat.add_mul, Nat.one_mul]; omega]
          exact hpiece
      · intro h
        refine ⟨?_, fun j hj hjleft => ?_⟩
        · have hfirst := h 0 (by omega) (by omega)
          rw [Nat.zero_mul, Int.natCast_zero, Int.add_zero] at hfirst
          exact hfirst
        · have hpiece := h (j + 1) (by omega) (by rw [Nat.add_mul, Nat.one_mul]; omega)
          rw [show posn + ((j + 1) * p.mtd.erasesize : ℕ) =
            posn + p.mtd.erasesize + (j * p.mtd.erasesize : ℕ) by
              rw [Nat.add_mul, Nat.one_mul]; omega] at hpiece
          exact hpiece

/-- A page is programmed once. -/
theorem pageLoop_inside (hmode : p.mode ≠ .block) (oks : List Bool) (hleft : left ≠ 0) :
    p.Inside (mtdWriteLoop junk (true :: oks) left p) ↔
      p.Covers (fileToMtdPos junk p) (p.mtd.reach (fileToMtdPos junk p) (progLen left p)) := by
  rw [mtdWriteLoop, if_neg hleft]
  dsimp only
  rw [if_pos rfl, if_neg hmode, ite_self, turn_inside]

theorem progLen_nor (hnor : p.mtd.nand = false) (hmode : p.mode = .block) :
    progLen left p = min left (maxlen p) := by
  have hlt : maxlen p < 4294967296 := u32_lt _
  rw [progLen, if_pos hmode, if_neg (by rw [hnor]; decide), roundUp, p.mtd.writesize_nor hnor,
    Nat.sub_self, Nat.add_zero, Nat.div_one, Nat.mul_one, Nat.mod_eq_of_lt (by omega)]

theorem maxlen_behind : maxlen { p with posn := p.posn + (maxlen p : ℕ) } = 0 := by
  rw [maxlen, maxlen, u32, u32]
  dsimp only
  omega

/-- With nothing left of the partition NOR flash is not programmed. -/
theorem norLoop_behind (hnor : p.mtd.nand = false) (hmode : p.mode = .block)
    (hmax : maxlen p = 0) (oks : List Bool) : p.Inside (mtdWriteLoop junk oks left p) := by
  cases oks with
  | nil => exact inside_nil
  | cons ok oks =>
    rw [mtdWriteLoop]
    dsimp only
    split
    · exact inside_nil
    · rw [progLen_nor hnor hmode, hmax, Nat.min_zero, if_pos rfl,
        if_neg (c := p.mtd.nand = true) (by rw [hnor]; decide), ite_self]
      exact turn_inside.mpr covers_zero

/-- NOR flash is programmed once, as far as the partition goes. -/
theorem norLoop_inside (hnor : p.mtd.nand = false) (ok : Bool) (oks : List Bool)
    (hleft : left ≠ 0) :
    p.Inside (mtdWriteLoop junk (ok :: oks) left p) ↔
      p.Covers (fileToMtdPos junk p) (p.mtd.reach (fileToMtdPos junk p) (progLen left p)) := by
  rw [mtdWriteLoop, if_neg hleft]
  dsimp only
  split
  · split
    · exact turn_inside
    · split
      · rename_i hmode
        rw [inside_append, turn_inside, and_iff_left]
        rw [progLen_nor hnor hmode]
        rcases Nat.le_total left (maxlen p) with hle | hge
        · rw [Nat.min_eq_left hle, Nat.sub_self]
          cases oks with
          | nil => exact inside_nil
          | cons ok oks =>
            rw [mtdWriteLoop, if_pos rfl]
            exact inside_nil
        · rw [Nat.min_eq_right hge]
          exact (norLoop_behind (p := { p with posn := p.posn + (maxlen p : ℕ) }) hnor hmode
            maxlen_behind oks).of_posn
      · exact turn_inside
  · rw [if_neg (by rw [hnor]; decide)]
    exact turn_inside

/-! ## §6 Programs that fail -/

theorem ceil_le_erasesize (h : len ≤ mtd.erasesize) : mtd.ceil len ≤ mtd.erasesize := by
  have hpos := mtd.erasesize_pos
  have hdiv : (len + (mtd.erasesize - 1)) / mtd.erasesize < 2 := by
    rw [Nat.div_lt_iff_lt_mul hpos]
    omega
  calc mtd.ceil len ≤ 1 * mtd.erasesize := Nat.mul_le_mul_right _ (by omega)
    _ = mtd.erasesize := Nat.one_mul _

theorem reach_le (h : len ≤ mtd.erasesize) :
    mtd.reach start len ≤ mtd.ceil start + mtd.erasesize := by
  have hceil := ceil_le_erasesize h
  rw [Mtd.reach]
  split
  · exact Nat.zero_le _
  · split <;> omega

/-- The same file, after some of its blocks have failed. -/
structure Later (p q : MtdFile) : Prop where
  mtd_eq : q.mtd = p.mtd
  mode_eq : q.mode = p.mode
  partOffset_eq : q.partOffset = p.partOffset
  openOffset_eq : q.openOffset = p.openOffset
  posn_eq : q.posn = p.posn

theorem Later.refl (p : MtdFile) : Later p p := ⟨rfl, rfl, rfl, rfl, rfl⟩

theorem Later.dropBlock (h : Later p q) : Later p (dropBlock start q) :=
  ⟨h.mtd_eq, h.mode_eq, h.partOffset_eq, h.openOffset_eq, h.posn_eq⟩

/-- On raw NAND a page is tried again where it is. -/
theorem rawLoop_inside (hmode : p.mode = .raw)
    (hcovers : p.Covers (u32 (p.partOffset + p.openOffset + p.posn))
      (p.mtd.ceil (u32 (p.partOffset + p.openOffset + p.posn)) + p.mtd.erasesize))
    (oks : List Bool) (hlater : Later p q) : p.Inside (mtdWriteLoop junk oks left q) := by
  induction oks generalizing q with
  | nil => exact inside_nil
  | cons ok oks ih =>
    have hpage : q.mode ≠ .block := by
      rw [hlater.mode_eq, hmode]
      decide
    have hlen : progLen left q ≤ p.mtd.erasesize := by
      have hwrite := Nat.le_of_dvd p.mtd.erasesize_pos p.mtd.writesize_dvd
      rw [progLen, if_neg hpage, hlater.mtd_eq]
      omega
    have hstart : fileToMtdPos junk q = u32 (p.partOffset + p.openOffset + p.posn) := by
      have htranslates : ¬q.translates = true := by
        rw [MtdFile.translates, hlater.mode_eq, hmode, Bool.and_eq_true]
        exact fun h => absurd h.2 (by decide)
      rw [fileToMtdPos, if_neg htranslates, hlater.partOffset_eq, hlater.openOffset_eq,
        hlater.posn_eq]
    have hturn := turn_inside.mpr fun x hlo hhi =>
      hcovers x hlo (Nat.lt_of_lt_of_le hhi (reach_le hlen))
    rw [mtdWriteLoop]
    dsimp only
    rw [hstart, hlater.mtd_eq]
    split
    · exact inside_nil
    · split
      · rw [ite_self]
        exact hturn
      · split
        · exact inside_append.mpr
            ⟨inside_append.mpr ⟨hturn, inside_markBad hcovers⟩, ih hlater.dropBlock⟩
        · exact hturn

theorem filter_update_lt {f : ℕ → Bool} {l : List ℕ} (hmem : b ∈ l) (hb : f b = false) :
    (l.filter fun i => !Function.update f b true i).length < (l.filter fun i => !f i).length := by
  have hfilter : (l.filter fun i => !Function.update f b true i) =
      (l.filter fun i => !f i).filter fun i => decide (i ≠ b) := by
    rw [List.filter_filter]
    refine List.filter_congr fun i _ => ?_
    by_cases hi : i = b
    · subst hi
      rw [Function.update_self, hb]
      simp
    · rw [Function.update_of_ne hi]
      simp [hi]
  rw [hfilter, List.length_filter_lt_length_iff_exists]
  exact ⟨b, List.mem_filter.mpr ⟨hmem, by rw [hb]; rfl⟩, by simp⟩

/-- The entries of a table that was built are good blocks. -/
theorem goodBlocks_good (hb : b ∈ (creatPartTransTable q).transTable) :
    b * q.mtd.erasesize < 4294967296 ∧ (creatPartTransTable q).bad b = false := by
  obtain ⟨hrange, hgood⟩ := List.mem_filter.mp hb
  have hlt : b < q.last := by
    obtain ⟨hfirst, hend⟩ := List.mem_range'_1.mp hrange
    omega
  have hle : (b + 1) * q.mtd.erasesize ≤ q.last * q.mtd.erasesize := Nat.mul_le_mul_right _ hlt
  have hlast : q.last * q.mtd.erasesize ≤ (q.partOffset + q.partSize) % 18446744073709551616 :=
    Nat.div_mul_le_self _ _
  have hend := q.partEnd_lt
  have hpos := q.mtd.erasesize_pos
  rw [Nat.add_mul, Nat.one_mul] at hle
  refine ⟨by omega, ?_⟩
  rw [Bool.not_eq_true'] at hgood
  exact hgood

theorem dropBlock_good (start : ℕ) (q : MtdFile) : ∀ b ∈ (dropBlock start q).transTable,
    b * (dropBlock start q).mtd.erasesize < 4294967296 ∧ (dropBlock start q).bad b = false := by
  intro b hb
  have hgood : b * q.mtd.erasesize < 4294967296 ∧ (dropBlock start q).bad b = false := by
    rw [dropBlock] at hb ⊢
    exact goodBlocks_good hb
  exact hgood

theorem mtdWriteLoop_failed (junk : ℕ → ℕ) (hnand : q.mtd.nand = true) (hleft : left ≠ 0) (oks : List Bool) :
    mtdWriteLoop junk (false :: oks) left q =
      eraseFirst q.mtd (fileToMtdPos junk q) (progLen left q) ++
        [.program (fileToMtdPos junk q) (progLen left q)] ++
        markBad q.mtd (fileToMtdPos junk q) ++
        mtdWriteLoop junk oks left (dropBlock (fileToMtdPos junk q) q) := by
  rw [mtdWriteLoop, if_neg hleft]
  dsimp only
  rw [if_neg (by decide), if_pos hnand]

/-- A program that may fail on NAND has an entry of the table, and is followed by one that may
    fail. -/
theorem fails_again (hnand : p.mtd.nand = true) (hlater : Later p q) (hleft : left ≠ 0)
    (h : ∀ oks, p.Inside (mtdWriteLoop p.mtd.behind oks left q)) :
    ∃ a, q.placeAt q.posn = some a ∧ a < p.mtd.size ∧
      ∀ oks, p.Inside (mtdWriteLoop p.mtd.behind oks left (dropBlock a q)) := by
  have hloop := mtdWriteLoop_failed p.mtd.behind (hlater.mtd_eq ▸ hnand) hleft
  have hsize : fileToMtdPos p.mtd.behind q < p.mtd.size := by
    have hops := h [false]
    rw [hloop] at hops
    have hmark := (inside_append.mp (inside_append.mp hops).1).2
    exact ((inside_cons.mp hmark).1 _ (Nat.le_refl _) (Nat.lt_succ_self _)).lt_size
  rcases hplace : q.placeAt q.posn with _ | a
  · have hbehind := size_le_fileToMtdPos hplace
    rw [hlater.mtd_eq] at hbehind
    omega
  · have hstart : fileToMtdPos p.mtd.behind q = a := fileToMtdPos_of_place hplace
    rw [hstart] at hsize hloop
    refine ⟨a, rfl, hsize, fun oks => ?_⟩
    have hops := h (false :: oks)
    rw [hloop] at hops
    exact (inside_append.mp hops).2

/-- Every failed program takes a good block out of the table. -/
theorem not_all_inside (hnand : p.mtd.nand = true) (htranslates : p.translates = true)
    (hleft : left ≠ 0) :
    ∀ q, Later p q →
      (∀ b ∈ q.transTable, b * q.mtd.erasesize < 4294967296 ∧ q.bad b = false) →
      ¬∀ oks, p.Inside (mtdWriteLoop p.mtd.behind oks left q) := by
  intro q
  induction hgood : ((List.range p.mtd.size).filter fun b => !q.bad b).length
    using Nat.strongRecOn generalizing q with
  | ind count ih =>
    intro hlater htable h
    obtain ⟨a, hplace, hsize, hagain⟩ := fails_again hnand hlater hleft h
    have hq : q.translates = true := by
      rw [MtdFile.translates, hlater.mtd_eq, hlater.mode_eq]
      exact htranslates
    have hpos := q.mtd.erasesize_pos
    rw [MtdFile.placeAt, if_pos hq] at hplace
    obtain ⟨b, hb, ha⟩ := Option.map_eq_some_iff.mp hplace
    obtain ⟨hlt, hgoodb⟩ := htable b (List.mem_of_getElem? hb)
    rw [Nat.mod_eq_of_lt hlt] at ha
    have hblock : a / q.mtd.erasesize = b := by
      rw [← ha, Nat.mul_comm, Nat.mul_add_div hpos, Nat.div_eq_of_lt (Nat.mod_lt _ hpos),
        Nat.add_zero]
    have hmem : b ∈ List.range p.mtd.size := by
      have hle := Nat.le_mul_of_pos_right b hpos
      exact List.mem_range.mpr (by omega)
    have hbad : (dropBlock a q).bad = Function.update q.bad b true := by
      rw [dropBlock, creatPartTransTable, hblock, if_neg (by rw [hlater.mtd_eq]; omega)]
    have hdrop := filter_update_lt hmem hgoodb
    rw [← hbad, hgood] at hdrop
    exact ih _ hdrop (dropBlock a q) rfl hlater.dropBlock (dropBlock_good a q) hagain

/-! ## §7 Writes -/

/-- A write stays inside where its programs succeed: on NAND each erase block's worth of it has an
    entry of the table and covers blocks of the window, on NOR flash what is left of it in the
    partition does, and of a page the page. -/
def MtdFile.Fits (p : MtdFile) (n : ℕ) : Prop :=
  if p.mode = .block ∧ p.mtd.nand = true then
    ∀ j : ℕ, j * p.mtd.erasesize < n →
      p.PieceFits (p.posn + (j * p.mtd.erasesize : ℕ)) p.mtd.erasesize
  else p.PieceFits p.posn (progLen (wantLen n p) p)

/-- A write stays inside even where its programs fail: never on NAND through the table, on raw NAND
    where the window has the block behind too. -/
def MtdFile.FitsFailing (p : MtdFile) (n : ℕ) : Prop :=
  if p.mtd.nand = true then
    p.mode = .raw ∧ p.Covers (u32 (p.partOffset + p.openOffset + p.posn))
      (p.mtd.ceil (u32 (p.partOffset + p.openOffset + p.posn)) + p.mtd.erasesize)
  else p.Fits n

theorem wantLen_ne_zero (h : writesNothing n p = false) : wantLen n p ≠ 0 := by
  intro hzero
  rw [writesNothing, hzero] at h
  exact absurd h (by simp)

theorem mtdfileWrite_of_writes (h : writesNothing n p = false) (oks : List Bool) :
    mtdfileWrite junk oks n p = mtdWriteLoop junk oks (wantLen n p) p := by
  rw [mtdfileWrite, h]
  rfl

theorem mtdfileWrite_of_nothing (h : writesNothing n p = true) (oks : List Bool) :
    mtdfileWrite junk oks n p = [] := by
  rw [mtdfileWrite, h]
  rfl

/-- One program, on NOR flash or of a page. -/
theorem onceLoop_inside (hone : ¬(p.mode = .block ∧ p.mtd.nand = true)) (oks : List Bool)
    (hleft : left ≠ 0) :
    p.Inside (mtdWriteLoop junk (true :: oks) left p) ↔
      p.Covers (fileToMtdPos junk p) (p.mtd.reach (fileToMtdPos junk p) (progLen left p)) := by
  by_cases hmode : p.mode = .block
  · have hnor : p.mtd.nand = false := by
      rw [← Bool.not_eq_true]
      exact fun hnand => hone ⟨hmode, hnand⟩
    exact norLoop_inside hnor true oks hleft
  · exact pageLoop_inside hmode oks hleft

/-- **Programs that succeed.** -/
theorem write_inside_iff (h : writesNothing n p = false) :
    (∀ junk k, p.Inside (mtdfileWrite junk (List.replicate k true) n p)) ↔ p.Fits n := by
  have hwant := wantLen_ne_zero h
  simp only [mtdfileWrite_of_writes h]
  rw [MtdFile.Fits]
  split
  · rename_i hblock
    have hn : wantLen n p = n := if_pos hblock.1
    rw [hn]
    constructor
    · intro hinside j hj
      refine pieceFits_of_covers fun junk => ?_
      exact (blockLoop_inside hblock.1 hblock.2 (j + 1) n p.posn).mp (hinside junk (j + 1)) j
        (Nat.lt_succ_self j) hj
    · intro hfits junk k
      refine (blockLoop_inside hblock.1 hblock.2 k n p.posn).mpr fun j _ hj => ?_
      exact (hfits j hj).covers junk
  · rename_i hone
    constructor
    · intro hinside
      refine pieceFits_of_covers fun junk => ?_
      exact (onceLoop_inside hone [] hwant).mp (hinside junk 1)
    · intro hfits junk k
      cases k with
      | zero => exact inside_nil
      | succ k => exact (onceLoop_inside hone _ hwant).mpr (hfits.covers junk)

/-- **Programs that may fail.** -/
theorem write_inside_failing_iff (h : writesNothing n p = false) :
    (∀ junk oks, p.Inside (mtdfileWrite junk oks n p)) ↔ p.FitsFailing n := by
  have hwant := wantLen_ne_zero h
  rw [MtdFile.FitsFailing]
  constructor
  · intro hinside
    split
    · rename_i hnand
      simp only [mtdfileWrite_of_writes h] at hinside
      by_cases hmode : p.mode = .raw
      · have hstart : fileToMtdPos (fun _ => 0) p =
            u32 (p.partOffset + p.openOffset + p.posn) := by
          rw [fileToMtdPos, MtdFile.translates, hmode]
          simp
        have hops := hinside (fun _ => 0) [false]
        rw [mtdWriteLoop_failed _ hnand hwant, hstart] at hops
        exact ⟨hmode, markBad_inside (inside_append.mp (inside_append.mp hops).1).2⟩
      · exfalso
        have htranslates : p.translates = true := by
          rw [MtdFile.translates, hnand, decide_eq_true hmode]
          rfl
        obtain ⟨a, -, -, hagain⟩ :=
          fails_again hnand (Later.refl p) hwant (hinside p.mtd.behind)
        exact not_all_inside hnand htranslates hwant (dropBlock a p) (Later.refl p).dropBlock
          (dropBlock_good a p) hagain
    · exact (write_inside_iff h).mp fun junk k => hinside junk _
  · intro hfits junk oks
    rw [mtdfileWrite_of_writes h]
    split at hfits
    · exact rawLoop_inside hfits.1 hfits.2 oks (Later.refl p)
    · rename_i hnor
      cases oks with
      | nil => exact inside_nil
      | cons ok oks =>
        rw [Bool.not_eq_true] at hnor
        rw [norLoop_inside hnor ok oks hwant]
        rw [MtdFile.Fits, if_neg (by rw [hnor]; simp)] at hfits
        exact hfits.covers junk

/-- **Flash files.**  A write erases and programs only blocks of its window exactly where it writes
    nothing or fits: where its programs succeed if it fits, and where they may fail if it fits
    even then. -/
theorem mtdfileWrite_inside (n : ℕ) (p : MtdFile) :
    ((∀ junk k, p.Inside (mtdfileWrite junk (List.replicate k true) n p)) ↔
      (writesNothing n p = true ∨ p.Fits n)) ∧
    ((∀ junk oks, p.Inside (mtdfileWrite junk oks n p)) ↔
      (writesNothing n p = true ∨ p.FitsFailing n)) := by
  cases h : writesNothing n p with
  | true =>
    simp only [mtdfileWrite_of_nothing h, true_or, iff_true]
    exact ⟨fun _ _ => inside_nil, fun _ _ => inside_nil⟩
  | false =>
    rw [write_inside_iff h, write_inside_failing_iff h]
    simp

/-- NAND of four erase blocks. -/
def smallNand : Mtd where
  nand := true
  erasesize := 131072
  writesize := 2048
  size := 524288
  erasesize_dvd := by decide
  writesize_dvd := by decide
  erasesize_dvd_size := by decide
  size_lt := by decide
  size_pos := by decide
  writesize_nor h := by cases h

/-- The first block of a partition of all four, opened as `@0,0x20000`. -/
def oneBlockFile : MtdFile where
  mtd := smallNand
  partOffset := 0
  partSize := 524288
  partSizeReal := 524288
  transTable := [0, 1, 2, 3]
  bad _ := false
  mode := .block
  openSize := 131072
  openOffset := 0
  posn := 0
  partOffset_lt := by decide
  partEnd_lt := by decide

/-- **Behind the window**: two blocks are written where the window has one, and no program
    fails. -/
theorem write_behind_window :
    ¬oneBlockFile.Inside (mtdfileWrite (fun _ => 0) [true, true] 262144 oneBlockFile) := by
  intro h
  have hops : mtdfileWrite (fun _ => 0) [true, true] 262144 oneBlockFile =
      [.erase 0 131072, .program 0 131072, .erase 131072 131072, .program 131072 131072] := by
    decide
  rw [hops] at h
  have hwindow := (h (.erase 131072 131072) (by decide) 131072 (by decide) (by decide)).window
  rw [if_pos (by decide)] at hwindow
  obtain ⟨k, hk, -, hend⟩ := hwindow
  change (k + 1) * 131072 ≤ 0 + 131072 at hend
  obtain rfl : k = 0 := by omega
  cases hk

end Pmon.Fs
