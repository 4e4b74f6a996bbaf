import Pmon.Flash.EraseRight

/-!
# Reading, changing and writing back

`fl_program` of `pmon/dev/flash.c`: block by block, of the size of a sector of one chip, flash
memory is copied to a buffer, changed there, erased, and programmed from the buffer.  The blocks are
those of absolute addresses; the erasing call goes by sectors of the map.  The device is one that
does what it is told.

## Key results

- `programLoop_apply`: what programming leaves in flash memory.
- `block_written`: a block that is a sector is changed as it should be.
- `flProgram_written`: the range is written and nothing else changes.
- `flProgram_largerSectors`: a sector that is larger than the block is lost.
-/

namespace Pmon.Flash

open Lib

/-! ## §1 What the device does -/

/-- Two offsets are in one sector of the device. -/
def SameSector (map : FlMap) (dev : FlDevice) (x y : ℕ) : Prop :=
  ∃ q < x + 1, SpanHolds (secLen map dev) q x ∧ SpanHolds (secLen map dev) q y

instance (map : FlMap) (dev : FlDevice) (x y : ℕ) : Decidable (SameSector map dev x y) :=
  inferInstanceAs (Decidable (∃ q < x + 1, _))

/-- The sector of an offset in the map is erased. -/
def eraseSector (map : FlMap) (dev : FlDevice) (m : Space) (o : BitVec 32) : Space := fun a =>
  if (a - map.flMapBase).toNat < map.flMapSize ∧
      SameSector map dev (o.toNat + map.flMapOffset)
        ((a - map.flMapBase).toNat + map.flMapOffset) then 0xff
  else m a

/-- A unit is programmed at an offset: bits are cleared. -/
def programUnit (map : FlMap) (ram m : Space) (w : BitVec 32 × BitVec 32) : Space := fun a =>
  match map.flMapBus with
  | .bus8On64 => if a = wideAddr map (map.flMapBase + w.1) then m a &&& ram w.2 else m a
  | bus =>
    if (a - (map.flMapBase + w.1)).toNat < bus.step then
      m a &&& ram (w.2 + (a - (map.flMapBase + w.1)))
    else m a

/-! ## §2 `fl_program` -/

/-- The copy of a block, changed from `offs` on. -/
def buffer (m : Space) (data : ℕ → UInt8) (buf nvram : BitVec 32) (done offs count : ℕ) : Space :=
  fun a =>
    let i := (a - buf).toNat
    if offs ≤ i ∧ i < offs + count then data (done + (i - offs)) else m (nvram + (a - buf))

/-- A block is erased and programmed from the buffer; `none` where a call fails, with what flash
    memory holds then. -/
def writeBlock (known : FlMap → Option FlDevice) (maps : List FlMap) (secsize : ℕ)
    (buf nvram : BitVec 32) (ram m : Space) : Bool × Space :=
  match flDevident known maps nvram with
  | none => (false, m)
  | some (map, dev) =>
    let e := flEraseDevice known maps true (fun _ => goodStep) 0 nvram (BitVec.ofNat 32 secsize)
    let m := e.tried.foldl (eraseSector map dev) m
    if e.result ≠ some 0 then (false, m)
    else
      let p := flProgramDevice known maps true (fun _ => 0) 0 nvram buf (BitVec.ofNat 32 secsize)
      (p.result = 0, p.written.foldl (programUnit map ram) m)

/-- The loop over the blocks. -/
def flProgramLoop (known : FlMap → Option FlDevice) (maps : List FlMap) (secsize : ℕ)
    (buf : BitVec 32) (data : ℕ → UInt8) (nvram : BitVec 32) (done left : ℕ) (m : Space) : Space :=
  if left = 0 then m
  else
    let mask := BitVec.ofNat 32 secsize - 1
    let offs := (nvram &&& mask).toNat
    let nvram := nvram &&& ~~~mask
    let count := min (secsize - offs) left
    let r := writeBlock known maps secsize buf nvram (buffer m data buf nvram done offs count) m
    if _h : r.1 ∧ 0 < count then
      flProgramLoop known maps secsize buf data (nvram + BitVec.ofNat 32 secsize) (done + count)
        (left - count) r.2
    else r.2
termination_by left
decreasing_by
  exact Nat.sub_lt (Nat.pos_of_ne_zero (by assumption)) _h.2

/-- `fl_program`: its result and what flash memory holds; `none` if it reads through a null pointer
    or copies to the end of the address space.  `malloc` is what `malloc` returns. -/
def flProgram (known : FlMap → Option FlDevice) (maps : List FlMap) (malloc : Option (BitVec 32))
    (data : ℕ → UInt8) (m : Space) (flBase dataSize : BitVec 32) : Option (ℤ × Space) :=
  match flDevident known maps flBase with
  | none => none
  | some (_, dev) =>
    match malloc with
    | none => some (-1, m)
    | some buf =>
      if dataSize.toInt < 0 then none
      else
        some (0, flProgramLoop known maps dev.flSecsize buf data flBase 0 dataSize.toInt.toNat m)

/-! ## §3 A call that programs -/

variable {known : FlMap → Option FlDevice} {maps : List FlMap} {map : FlMap} {dev : FlDevice}
  {ram m : Space} {a : BitVec 32}

/-- The bus moves on by what it programs. -/
structure Linear (map : FlMap) : Prop where
  step_eq : map.flMapBus.step = map.flMapWidth
  bus : map.flMapBus ≠ .bus8On64

theorem Linear.programUnit_apply (h : Linear map) (off src : BitVec 32) :
    programUnit map ram m (off, src) a =
      if (a - (map.flMapBase + off)).toNat < map.flMapWidth then
        m a &&& ram (src + (a - (map.flMapBase + off)))
      else m a := by
  have hstep := h.step_eq
  have hbus := h.bus
  unfold programUnit
  cases hmap : map.flMapBus with
  | bus8On64 => exact absurd hmap hbus
  | _ => simp only [hmap] at hstep ⊢; rw [hstep]

/-- The next unit begins behind the first one. -/
theorem toNat_sub_add {x b : BitVec 32} {n : ℕ} (hn : n < 4294967296) :
    (x - (b + BitVec.ofNat 32 n)).toNat =
      if n ≤ (x - b).toNat then (x - b).toNat - n else (x - b).toNat + 4294967296 - n := by
  have hnat : (BitVec.ofNat 32 n).toNat = n := by
    rw [BitVec.toNat_ofNat]
    exact Nat.mod_eq_of_lt hn
  have hlt := (x - b).isLt
  rw [← BitVec.sub_sub, BitVec.toNat_sub, hnat]
  split
  · omega
  · omega

/-- **What programming leaves** in flash memory, for whole units. -/
theorem programLoop_apply (h : Linear map) {dataSize : BitVec 32} {i k : ℕ} {off src : BitVec 32}
    {program : ℕ → ℤ} {ok : ℤ} (hdvd : map.flMapWidth ∣ dataSize.toInt.toNat - i) :
    ((programLoop map program dataSize i k off src ok).written.foldl (programUnit map ram) m) a =
      if (a - (map.flMapBase + off)).toNat < dataSize.toInt.toNat - i then
        m a &&& ram (src + (a - (map.flMapBase + off)))
      else m a := by
  have hwidth := map.width_pos
  have hsize := map.size_lt
  have hint := BitVec.toInt_lt (x := dataSize)
  obtain ⟨n, hn⟩ := hdvd
  induction n generalizing i k off src ok m with
  | zero =>
    rw [programLoop, if_neg (by omega), if_neg (by omega)]
    rfl
  | succ n ih =>
    rw [Nat.mul_succ] at hn
    have hrest : dataSize.toInt.toNat - (i + map.flMapWidth) = map.flMapWidth * n := by omega
    rw [programLoop, if_pos (by omega)]
    simp only [List.foldl_cons]
    rw [ih hrest, h.programUnit_apply, h.step_eq, ← BitVec.add_assoc, toNat_sub_add (by omega)]
    by_cases hfirst : (a - (map.flMapBase + off)).toNat < map.flMapWidth
    · -- a byte of the first unit is not met again
      rw [if_neg (Nat.not_le_of_lt hfirst), if_pos hfirst, if_neg (by omega), if_pos (by omega)]
    · rw [if_pos (Nat.le_of_not_lt hfirst), if_neg hfirst]
      have hsrc : src + BitVec.ofNat 32 map.flMapWidth +
          (a - (map.flMapBase + off + BitVec.ofNat 32 map.flMapWidth)) =
          src + (a - (map.flMapBase + off)) := by
        rw [← BitVec.sub_sub, BitVec.add_assoc, BitVec.add_comm (BitVec.ofNat 32 map.flMapWidth),
          BitVec.sub_add_cancel]
      rw [hsrc]
      by_cases hlater : (a - (map.flMapBase + off)).toNat < dataSize.toInt.toNat - i
      · rw [if_pos (by omega), if_pos hlater]
      · rw [if_neg (by omega), if_neg hlater]

/-! ## §4 A block -/

/-- A block of `secsize` bytes from `c` on is a sector of the map, and the calls for it are
    right. -/
structure BlockFits (known : FlMap → Option FlDevice) (maps : List FlMap) (secsize : ℕ)
    (map : FlMap) (dev : FlDevice) (c : BitVec 32) : Prop where
  found : flDevident known maps c = some (map, dev)
  linear : Linear map
  width_dvd : map.flMapWidth ∣ secsize
  offset : map.flMapOffset = 0
  end_le : (c - map.flMapBase).toNat + secsize ≤ map.flMapSize
  whole : ∃ q, spanStart (secLen map dev) q = (c - map.flMapBase).toNat ∧
    secLen map dev q = secsize
  grid : OnGrid map dev c (BitVec.ofNat 32 secsize)

theorem goodStep_succeeds : goodStep.Succeeds := ⟨rfl, goodStep_answer⟩

/-- Sectors of the map are not empty. -/
theorem OnGrid.len_pos {base size : BitVec 32} (h : OnGrid map dev base size) {j : ℕ}
    (hj : spanStart (secLen map dev) j < map.flMapOffset + map.flMapSize) :
    0 < secLen map dev j := by
  unfold OnGrid at h
  cases hvar : dev.flVarsecsize with
  | none =>
    rw [hvar] at h
    obtain ⟨k, hk⟩ := h.sector
    rw [secLen_uniform hvar, hk]
    exact Nat.two_pow_pos k
  | some sizes =>
    rw [hvar] at h
    have hcovers := h.covers
    have hlt : j < sizes.length := by
      by_contra hbehind
      have := spanStart_mono (ℓ := secLen map dev) (Nat.le_of_not_lt hbehind)
      omega
    rw [secLen_var hvar]
    simp only [List.getElem?_eq_getElem hlt, Option.getD_some]
    exact Nat.mul_pos (h.pos _ (List.getElem_mem hlt)) map.chips_pos

/-- What is erased by several commands. -/
theorem foldl_eraseSector (os : List (BitVec 32)) :
    os.foldl (eraseSector map dev) m a =
      if ∃ o ∈ os, (a - map.flMapBase).toNat < map.flMapSize ∧
        SameSector map dev (o.toNat + map.flMapOffset)
          ((a - map.flMapBase).toNat + map.flMapOffset) then 0xff
      else m a := by
  induction os generalizing m with
  | nil => simp
  | cons o os ih =>
    rw [List.foldl_cons, ih, eraseSector]
    simp only [List.exists_mem_cons_iff]
    by_cases hrest : ∃ o ∈ os, (a - map.flMapBase).toNat < map.flMapSize ∧
        SameSector map dev (o.toNat + map.flMapOffset)
          ((a - map.flMapBase).toNat + map.flMapOffset)
    · rw [if_pos hrest, if_pos (.inr hrest)]
    · rw [if_neg hrest]
      simp only [hrest, or_false]

variable {secsize : ℕ} {c buf : BitVec 32}

/-- The number of bytes of a block as an `int`. -/
theorem toInt_secsize (hlt : secsize < 2147483648) :
    (BitVec.ofNat 32 secsize).toInt = secsize := by
  rw [BitVec.toInt_ofNat']
  exact Int.bmod_eq_of_le (by omega) (by omega)

/-- Only the sector that is the block is touched. -/
theorem BlockFits.touched (h : BlockFits known maps secsize map dev c) (hlt : secsize < 2147483648)
    {q : ℕ} (hq : spanStart (secLen map dev) q = (c - map.flMapBase).toNat)
    (hlen : secLen map dev q = secsize) {j : ℕ} :
    Touched map dev c (BitVec.ofNat 32 secsize) j ↔ j = q ∧ 0 < secsize := by
  have hint := toInt_secsize hlt
  have hoffset := h.offset
  constructor
  · rintro ⟨n, r, hwithin, hlo, hhi⟩
    unfold rangeEnd rangeStart at hhi
    unfold rangeStart at hlo
    have hholds : SpanHolds (secLen map dev) q n := ⟨by omega, by omega⟩
    exact ⟨(spanHolds_iff.mpr ⟨r, hwithin⟩).unique hholds, by omega⟩
  · rintro ⟨rfl, hpos⟩
    refine ⟨spanStart (secLen map dev) j, 0, ⟨rfl, by omega⟩, ?_, ?_⟩
    · unfold rangeStart
      omega
    · unfold rangeEnd rangeStart
      omega

/-- The offset in the map of an address of the block. -/
theorem toNat_sub_base (c : BitVec 32) (hlt : (c - map.flMapBase).toNat + (a - c).toNat < 2 ^ 32) :
    (a - map.flMapBase).toNat = (c - map.flMapBase).toNat + (a - c).toNat := by
  have hsum : c - map.flMapBase + (a - c) = a - map.flMapBase :=
    sub_add_sub_cancel' c map.flMapBase a
  rw [← hsum, BitVec.toNat_add, Nat.mod_eq_of_lt hlt]

/-- **The sector of the block is erased**, and no other. -/
theorem block_erased (h : BlockFits known maps secsize map dev c) (hpos : 0 < secsize)
    (hlt : secsize < 2147483648) :
    let e := flEraseDevice known maps true (fun _ => goodStep) 0 c (BitVec.ofNat 32 secsize)
    e.result = some 0 ∧
      e.tried.foldl (eraseSector map dev) m a =
        if (a - c).toNat < secsize then 0xff else m a := by
  obtain ⟨q, hq, hlen⟩ := h.whole
  have hint := toInt_secsize hlt
  have hend := h.end_le
  have hoffset := h.offset
  have hsize := map.size_lt
  have hwhole : wholeSize map c (BitVec.ofNat 32 secsize) = BitVec.ofNat 32 secsize := by
    unfold wholeSize
    rw [if_neg]
    rintro ⟨hall, -⟩
    rw [hall] at hint
    have : (-1 : BitVec 32).toInt = -1 := by decide
    omega
  have hcall : flEraseDevice known maps true (fun _ => goodStep) 0 c (BitVec.ofNat 32 secsize) =
      eraseFound map dev (fun _ => goodStep) 0 c (BitVec.ofNat 32 secsize) := by
    unfold flEraseDevice
    rw [h.found]
    simp [hwhole]
  have hcourse : Course map dev (fun _ => goodStep) 0 c (BitVec.ofNat 32 secsize) _ :=
    eraseFound_course (flDevident_contains h.found) h.grid
  have hmap : InMap map c (BitVec.ofNat 32 secsize) := by
    unfold InMap
    omega
  have hright := hcourse.right.mpr fun _ _ _ _ _ _ _ _ => goodStep_answer
  dsimp only
  rw [hcall]
  refine ⟨hcourse.succeeds (fun _ => goodStep_succeeds) (by omega) hmap, ?_⟩
  rw [foldl_eraseSector]
  apply if_congr _ rfl rfl
  constructor
  · rintro ⟨o, ho, hin, q', -, hx, hy⟩
    obtain ⟨j, ⟨-, hj⟩, htouched⟩ := hright.none_else o ho
    obtain ⟨rfl, -⟩ := (h.touched hlt hq hlen).mp htouched
    obtain rfl := hx.unique (spanHolds_iff.mpr hj)
    obtain ⟨hlo, hhi⟩ := hy
    have hsub : a - map.flMapBase - (c - map.flMapBase) = a - c :=
      sub_sub_sub_cancel_right a c map.flMapBase
    rw [← hsub, BitVec.toNat_sub_of_le (by rw [BitVec.le_def]; omega)]
    omega
  · intro hin
    have hnat : (a - map.flMapBase).toNat = (c - map.flMapBase).toNat + (a - c).toNat :=
      toNat_sub_base c (by omega)
    obtain ⟨o, ho, hselects⟩ := hright.all (fun _ _ => rfl) hmap q
      ((h.touched hlt hq hlen).mpr ⟨rfl, hpos⟩)
    have hholds := spanHolds_iff.mpr hselects.2
    refine ⟨o, ho, by omega, q, ?_, hholds, by omega, by omega⟩
    have hle : q ≤ spanStart (secLen map dev) q := by
      apply le_spanStart
      intro j hj
      apply h.grid.len_pos
      have := spanStart_mono (ℓ := secLen map dev) (Nat.le_of_lt hj)
      omega
    have := hholds.1
    omega

/-- What is erased takes any byte. -/
theorem erased_and (x : UInt8) : 0xff &&& x = x := by
  apply UInt8.eq_of_toBitVec_eq
  exact BitVec.allOnes_and (x := x.toBitVec)

/-- **A block that fits** holds what the buffer holds. -/
theorem block_written (h : BlockFits known maps secsize map dev c) (hpos : 0 < secsize)
    (hlt : secsize < 2147483648) (hbuf : buf ≠ -1) :
    (writeBlock known maps secsize buf c ram m).1 = true ∧
      (writeBlock known maps secsize buf c ram m).2 a =
        if (a - c).toNat < secsize then ram (buf + (a - c)) else m a := by
  have hint := toInt_secsize hlt
  have hend := h.end_le
  obtain ⟨hresult, herased⟩ := block_erased (m := m) (a := a) h hpos hlt
  have haccepted : Accepted map c buf (BitVec.ofNat 32 secsize) := by
    constructor
    · rintro (hall | hall)
      · rw [hall] at hint
        have : (-1 : BitVec 32).toInt = -1 := by decide
        omega
      · exact hbuf hall
    · have hsize := map.size_lt
      rw [BitVec.toNat_add, BitVec.toNat_ofNat]
      omega
  have hcall : flProgramDevice known maps true (fun _ => 0) 0 c buf (BitVec.ofNat 32 secsize) =
      programLoop map (fun _ => 0) (BitVec.ofNat 32 secsize) 0 0
        (c - map.flMapBase + BitVec.ofNat 32 map.flMapOffset) buf 0 := by
    unfold flProgramDevice
    rw [h.found]
    simp [haccepted]
  have hprogrammed := (@programLoop_result map 0 (fun _ => 0) (BitVec.ofNat 32 secsize) 0
    (c - map.flMapBase + BitVec.ofNat 32 map.flMapOffset) buf).2
  rw [Nat.zero_mul, ite_self] at hprogrammed
  have hstart : map.flMapBase + (c - map.flMapBase + BitVec.ofNat 32 map.flMapOffset) = c := by
    rw [h.offset, BitVec.add_zero, BitVec.add_comm, BitVec.sub_add_cancel]
  have hdvd : map.flMapWidth ∣ (BitVec.ofNat 32 secsize).toInt.toNat - 0 := by
    rw [hint, Int.toNat_natCast]
    exact h.width_dvd
  unfold writeBlock
  rw [h.found]
  simp only [hresult, ne_eq, not_true_eq_false, if_false, hcall, hprogrammed, decide_true, true_and]
  rw [programLoop_apply h.linear hdvd, hstart, herased, hint, Int.toNat_natCast, Nat.sub_zero]
  split
  · exact erased_and _
  · rfl

/-! ## §5 The range -/

/-- The range holds the data, and nothing else has changed. -/
def Written (m m' : Space) (data : ℕ → UInt8) (base : BitVec 32) (n : ℕ) : Prop :=
  ∀ a, m' a = if (a - base).toNat < n then data (a - base).toNat else m a

/-- The block that an address is in. -/
def blockOf (secsize : ℕ) (a : BitVec 32) : BitVec 32 := a &&& ~~~(BitVec.ofNat 32 secsize - 1)

variable {data : ℕ → UInt8}

/-- Where an address lies in its block. -/
theorem blockOf_add {k : ℕ} (hk : secsize = 2 ^ k) (hlt : secsize < 2147483648) (a : BitVec 32) :
    (a &&& (BitVec.ofNat 32 secsize - 1)).toNat < secsize ∧
      a = blockOf secsize a +
        BitVec.ofNat 32 (a &&& (BitVec.ofNat 32 secsize - 1)).toNat := by
  have hm : (BitVec.ofNat 32 secsize).toNat = 2 ^ k := by
    rw [BitVec.toNat_ofNat, ← hk]
    exact Nat.mod_eq_of_lt (by omega)
  have hsum := toNat_and_add_and_not a (BitVec.ofNat 32 secsize - 1)
  constructor
  · rw [toNat_and_sub_one hm, hm, ← hk]
    exact Nat.mod_lt _ (hk ▸ Nat.two_pow_pos k)
  · apply BitVec.eq_of_toNat_eq
    rw [blockOf, BitVec.ofNat_toNat, BitVec.setWidth_eq, BitVec.toNat_add]
    omega

/-- One round of the loop writes what is left of its block. -/
theorem writeBlock_apply {k : ℕ} (hk : secsize = 2 ^ k) (hlt : secsize < 2147483648)
    (hbuf : buf ≠ -1) {nvram : BitVec 32} {done count : ℕ}
    (hfits : BlockFits known maps secsize map dev (blockOf secsize nvram))
    (hcount : (nvram &&& (BitVec.ofNat 32 secsize - 1)).toNat + count ≤ secsize) :
    let offs := (nvram &&& (BitVec.ofNat 32 secsize - 1)).toNat
    let r := writeBlock known maps secsize buf (blockOf secsize nvram)
      (buffer m data buf (blockOf secsize nvram) done offs count) m
    r.1 = true ∧
      r.2 a = if (a - nvram).toNat < count then data (done + (a - nvram).toNat) else m a := by
  obtain ⟨hoffs, hnvram⟩ := blockOf_add hk hlt nvram
  have hpos : 0 < secsize := by omega
  have hwritten := @block_written known maps map dev
    (buffer m data buf (blockOf secsize nvram) done
      (nvram &&& (BitVec.ofNat 32 secsize - 1)).toNat count)
    m a secsize (blockOf secsize nvram) buf hfits hpos hlt hbuf
  refine ⟨hwritten.1, ?_⟩
  have hi : buf + (a - blockOf secsize nvram) - buf = a - blockOf secsize nvram := by
    rw [BitVec.add_comm, BitVec.add_sub_cancel]
  have ha : blockOf secsize nvram + (a - blockOf secsize nvram) = a := by
    rw [BitVec.add_comm, BitVec.sub_add_cancel]
  have hsub : (a - nvram).toNat = _ :=
    (congrArg (fun b => (a - b).toNat) hnvram).trans (toNat_sub_add (by omega))
  rw [hwritten.2, hsub]
  unfold buffer
  simp only [hi, ha]
  by_cases hblock : (a - blockOf secsize nvram).toNat < secsize
  · rw [if_pos hblock]
    split
    next hin =>
      rw [if_pos (by rw [if_pos hin.1]; omega), if_pos hin.1]
    next hout =>
      rw [if_neg]
      split <;> omega
  · rw [if_neg hblock, if_neg]
    split <;> omega

/-- **The loop** from a byte of the range on. -/
theorem flProgramLoop_apply {k : ℕ} (hk : secsize = 2 ^ k) (hlt : secsize < 2147483648)
    (hbuf : buf ≠ -1) {nvram : BitVec 32} {done left : ℕ} (hleft : left < 2147483648)
    (hfits : ∀ i < left, ∃ map dev,
      BlockFits known maps secsize map dev (blockOf secsize (nvram + BitVec.ofNat 32 i))) :
    flProgramLoop known maps secsize buf data nvram done left m a =
      if (a - nvram).toNat < left then data (done + (a - nvram).toNat) else m a := by
  induction left using Nat.strong_induction_on generalizing nvram done m with
  | h left ih =>
    rw [flProgramLoop]
    by_cases hzero : left = 0
    · rw [if_pos hzero, if_neg (by omega)]
    · rw [if_neg hzero]
      obtain ⟨map, dev, hblock⟩ := hfits 0 (Nat.pos_of_ne_zero hzero)
      rw [BitVec.add_zero] at hblock
      obtain ⟨hoffs, hnvram⟩ := blockOf_add hk hlt nvram
      generalize hcount :
        min (secsize - (nvram &&& (BitVec.ofNat 32 secsize - 1)).toNat) left = count
      have hround := fun a => @writeBlock_apply known maps map dev m a secsize buf data k hk hlt
        hbuf nvram done count hblock (by omega)
      dsimp only at hround
      generalize hr : writeBlock known maps secsize buf (blockOf secsize nvram)
        (buffer m data buf (blockOf secsize nvram) done
          (nvram &&& (BitVec.ofNat 32 secsize - 1)).toNat count) m = r at hround
      have hloop : r.1 = true ∧ 0 < count := ⟨(hround a).1, by omega⟩
      unfold blockOf at hr
      simp only [hr, dif_pos hloop]
      by_cases hlast : left ≤ secsize - (nvram &&& (BitVec.ofNat 32 secsize - 1)).toNat
      · -- the range ends in this block
        have hdone : left - count = 0 := by omega
        rw [hdone, flProgramLoop, if_pos rfl, (hround a).2, show count = left by omega]
      · have hnext : (nvram &&& ~~~(BitVec.ofNat 32 secsize - 1)) + BitVec.ofNat 32 secsize =
            nvram + BitVec.ofNat 32 count := by
          conv_rhs => rw [hnvram]
          rw [BitVec.add_assoc, ← BitVec.ofNat_add, blockOf]
          congr 2
          omega
        have hrest : ∀ i < left - count, ∃ map dev, BlockFits known maps secsize map dev
            (blockOf secsize (nvram + BitVec.ofNat 32 count + BitVec.ofNat 32 i)) := by
          intro i hi
          have hlater := hfits (count + i) (by omega)
          rwa [BitVec.ofNat_add, ← BitVec.add_assoc] at hlater
        rw [hnext, ih _ (by omega) (by omega) hrest, (hround a).2, toNat_sub_add (by omega)]
        by_cases hfirst : (a - nvram).toNat < count
        · rw [if_neg (Nat.not_le_of_lt hfirst), if_pos hfirst, if_neg (by omega), if_pos (by omega)]
        · rw [if_pos (Nat.le_of_not_lt hfirst), if_neg hfirst]
          by_cases hlater : (a - nvram).toNat < left
          · rw [if_pos (by omega), if_pos hlater]
            congr 1
            omega
          · rw [if_neg (by omega), if_neg hlater]

/-- The blocks of the range are sectors. -/
structure ProgramFits (known : FlMap → Option FlDevice) (maps : List FlMap) (dev : FlDevice)
    (base size : BitVec 32) : Prop where
  pow_two : ∃ k, dev.flSecsize = 2 ^ k
  lt : dev.flSecsize < 2147483648
  size_nonneg : 0 ≤ size.toInt
  blocks : ∀ i < size.toInt.toNat, ∃ map' dev',
    BlockFits known maps dev.flSecsize map' dev' (blockOf dev.flSecsize (base + BitVec.ofNat 32 i))

/-- **`fl_program`** writes the range, and everything else stays as it was. -/
theorem flProgram_written {base size : BitVec 32} {map : FlMap} {dev : FlDevice}
    (hfound : flDevident known maps base = some (map, dev))
    (hfits : ProgramFits known maps dev base size) (hbuf : buf ≠ -1) (data : ℕ → UInt8)
    (m : Space) :
    ∃ m', flProgram known maps (some buf) data m base size = some (0, m') ∧
      Written m m' data base size.toInt.toNat := by
  obtain ⟨k, hk⟩ := hfits.pow_two
  have hint := BitVec.toInt_lt (x := size)
  refine ⟨flProgramLoop known maps dev.flSecsize buf data base 0 size.toInt.toNat m, ?_, ?_⟩
  · unfold flProgram
    rw [hfound]
    simp [hfits.size_nonneg]
  · intro a
    rw [flProgramLoop_apply hk hfits.lt hbuf (by omega) hfits.blocks, Nat.zero_add]

/-- Two bytes of a small map. -/
theorem flProgram_written_smallMap :
    ∃ m', flProgram (fun _ => some ⟨16, none⟩) [smallMap] (some 0x80100000) (fun i => UInt8.ofNat i)
        (fun _ => 0) 0xbfc00004 2 = some (0, m') ∧
      Written (fun _ => 0) m' (fun i => UInt8.ofNat i) 0xbfc00004 2 := by
  have hblock : BlockFits (fun _ => some ⟨16, none⟩) [smallMap] 16 smallMap ⟨16, none⟩
      0xbfc00000 := by
    constructor
    case found => rfl
    case linear => exact ⟨rfl, by decide⟩
    case width_dvd => exact Nat.one_dvd 16
    case offset => rfl
    case end_le => decide
    case whole => exact ⟨0, rfl, rfl⟩
    case grid =>
      refine ⟨⟨4, by decide⟩, by decide, by decide, by decide, by decide, fun hmis => ?_⟩
      exact absurd (by decide) hmis
  have hfits : ProgramFits (fun _ => some ⟨16, none⟩) [smallMap] ⟨16, none⟩ 0xbfc00004 2 := by
    refine ⟨⟨4, rfl⟩, by decide, by decide, fun i hi => ⟨smallMap, ⟨16, none⟩, ?_⟩⟩
    have hall : ∀ i < 2, blockOf 16 (0xbfc00004 + BitVec.ofNat 32 i) = 0xbfc00000 := by decide
    rw [hall i hi]
    exact hblock
  exact flProgram_written rfl hfits (by decide) _ _

/-- A map of 8 bits with sectors of 4 kB, 8 of them, and of 32 kB. -/
def byteMap : FlMap where
  flMapBase := 0xbc000000
  flMapSize := 0x2000000
  flMapWidth := 1
  flMapChips := 1
  flMapBus := .bus8
  flMapOffset := 0
  width_pos := Nat.one_pos
  chips_pos := Nat.one_pos
  end_le := wordMap.end_le
  size_lt := by decide

/-- `M29W640F`. -/
def m29w640f : FlDevice where
  flSecsize := 0x1000
  flVarsecsize := some (List.replicate 8 0x1000 ++ List.replicate 127 0x8000)

/-- The sector of 32 kB. -/
theorem sameSector_m29w640f : SameSector byteMap m29w640f 0x8000 0x9000 := by
  have hlen : secLen byteMap m29w640f 8 = 0x8000 := by decide
  have hstart : spanStart (secLen byteMap m29w640f) 8 = 0x8000 := by
    rw [secLen_var rfl, spanStart_list]
    decide
  refine ⟨8, by omega, ?_, ?_⟩
  · unfold SpanHolds
    omega
  · unfold SpanHolds
    omega

/-- The sector is erased for its first 4 kB. -/
theorem tried_m29w640f : (0x8000 : BitVec 32) ∈
    (flEraseDevice (fun _ => some m29w640f) [byteMap] true (fun _ => goodStep) 0 0xbc008000
      (BitVec.ofNat 32 0x1000)).tried := by
  have hfound : flDevident (fun _ => some m29w640f) [byteMap] 0xbc008000 =
      some (byteMap, m29w640f) := rfl
  have hfind : findBlock byteMap.flMapChips
      ((0xbc008000 - byteMap.flMapBase).toNat + byteMap.flMapOffset)
      (List.replicate 8 0x1000 ++ List.replicate 127 0x8000) 0 0 = some 8 := by decide
  have hsize : (List.replicate 8 0x1000 ++ List.replicate 127 0x8000)[8]? = some 0x8000 := by
    decide
  have hwhole : wholeSize byteMap 0xbc008000 (BitVec.ofNat 32 0x1000) = 0x1000 := by decide
  have hround : roundBase byteMap (secMask byteMap 0x8000) 0xbc008000 0x1000 =
      some (0xbc008000, 0x1000) := by decide
  have hbase : 0xbc008000 - byteMap.flMapBase = 0x8000 := by decide
  have hvar : m29w640f.flVarsecsize =
      some (List.replicate 8 0x1000 ++ List.replicate 127 0x8000) := rfl
  unfold flEraseDevice
  rw [if_neg (by decide), hfound]
  dsimp only
  unfold eraseFound
  rw [hvar]
  simp only [hfind, hsize, hwhole, hround]
  rw [hbase, eraseLoop, if_pos (by decide), if_pos (show goodStep.accepted = true from rfl)]
  split
  · exact List.mem_cons_self
  · split
    · exact List.mem_cons_self
    · exact List.mem_cons_self

/-- **The rest of a sector that is larger than the block is lost**: one byte is written. -/
theorem flProgram_largerSectors :
    ∃ m', flProgram (fun _ => some m29w640f) [byteMap] (some 0x80100000) (fun _ => 5) (fun _ => 0)
        0xbc008000 1 = some (0, m') ∧
      SameSector byteMap m29w640f 0x8000 0x9000 ∧ m' 0xbc009000 = 0xff := by
  refine ⟨_, rfl, sameSector_m29w640f, ?_⟩
  have herased : ∀ m : Space, (flEraseDevice (fun _ => some m29w640f) [byteMap] true
      (fun _ => goodStep) 0 0xbc008000 (BitVec.ofNat 32 0x1000)).tried.foldl
        (eraseSector byteMap m29w640f) m 0xbc009000 = 0xff := by
    intro m
    rw [foldl_eraseSector, if_pos]
    exact ⟨0x8000, tried_m29w640f, by decide, sameSector_m29w640f⟩
  have hblock : ∀ ram : Space, (writeBlock (fun _ => some m29w640f) [byteMap] 0x1000 0x80100000
      0xbc008000 ram (fun _ => 0)).2 0xbc009000 = 0xff := by
    intro ram
    have hfound : flDevident (fun _ => some m29w640f) [byteMap] 0xbc008000 =
        some (byteMap, m29w640f) := rfl
    unfold writeBlock
    rw [hfound]
    dsimp only
    split
    · exact herased _
    · have haccepted : Accepted byteMap 0xbc008000 0x80100000 (BitVec.ofNat 32 0x1000) := by decide
      unfold flProgramDevice
      rw [if_neg (by decide), hfound]
      simp only [if_pos haccepted]
      -- the programming call does not come to the byte
      rw [programLoop_apply ⟨rfl, by decide⟩ (Nat.one_dvd _), if_neg (by decide)]
      exact herased _
  have hleft : (1 : BitVec 32).toInt.toNat = 1 := by decide
  have hbase : (0xbc008000 : BitVec 32) &&& ~~~(BitVec.ofNat 32 0x1000 - 1) = 0xbc008000 := by
    decide
  have hsecsize : m29w640f.flSecsize = 0x1000 := rfl
  rw [hleft, hsecsize, flProgramLoop, if_neg (by decide)]
  simp only [hbase]
  split
  · rw [flProgramLoop, if_pos (by decide)]
    exact hblock _
  · exact hblock _

end Pmon.Flash
