import Mathlib.Data.Int.Notation
import Pmon.Flash.SpiDriver
import Pmon.Lib.Strides

/-!
# Erasing the SPI flash

`spi_erase` of `pmon/dev/flash_spi.c` and of `pmon/cmds/cmd_spi.c`.  Both go over the range in
strides of an erase block.  The first erases the whole chip from a megabyte on, reads back what it
has erased, and returns early when that does not verify; the second compares where it should shift,
so that two bytes of an address are 0 or 1.

## Key results

- `mem_erasedBlocks_loop`: the blocks that the loop of either driver names.
- `spiErase_exact`: when the two calls are right.
-/

namespace Pmon.Flash

open Pmon.Lib

/-! ## §1 The drivers -/

/-- The loop of `loongson_spi_erase`, which runs once at least. -/
def spiEraseLoop (one : ℕ → List SpiOp) (blksize limit : ℕ) : (fuel offset : ℕ) → List SpiOp
  | 0, _ => []
  | fuel + 1, offset =>
    one offset ++
      if (offset + blksize) % 4294967296 < limit then
        spiEraseLoop one blksize limit fuel ((offset + blksize) % 4294967296)
      else []

/-- `loongson_spi_erase`; there are no more rounds than blocks. -/
def loongsonSpiErase (one : ℕ → List SpiOp) (blksize off n : ℕ) : List SpiOp :=
  spiEraseLoop one blksize ((n + off) % 4294967296) (4294967296 / blksize) off

namespace FlashSpi

/-- `BLKSIZE`. -/
def blksize : ℕ := 0x1000

/-- `FLASH_SIZE`. -/
def flashSize : ℕ := 0x100000

/-- The body of the loop of `loongson_spi_erase`. -/
def eraseBlock (offset : ℕ) : List SpiOp :=
  [.wait, .wait, .cmd [0x06], .wait, .cmd ([0x20] ++ addr3 offset), .wait]

/-- `loongson_chip_erase`. -/
def chipErase : List SpiOp := [.cmd [0x06], .wait, .cmd [0xc7], .wait]

/-- `spi_erase`, where `data` is what is read back. -/
def spiErase (offset n : ℕ) (data : ℕ → UInt8) : ℤ × List SpiOp :=
  let ops := [.cs true] ++ disableWriteProtection ++
    (if n < flashSize then loongsonSpiErase eraseBlock blksize offset n else chipErase) ++
    spiRead offset n
  if ∀ i < n, data i = 0xff then (0, ops ++ enableWriteProtection ++ [.cs false]) else (-1, ops)

end FlashSpi

namespace CmdSpi

/-- `BLKSIZE`. -/
def blksize : ℕ := 0x10000

/-- `loongson_disabel_writeprotection`. -/
def disableWriteProtection : List SpiOp := [.cmd [0x50], .cmd [0x01, 0], .wait, .cmd [0x06], .wait]

/-- `loongson_enabel_writeprotection`. -/
def enableWriteProtection : List SpiOp := [.cmd [0x50], .cmd [0x01, 0x1c], .wait, .cmd [0x04]]

/-- The body of the loop of `loongson_spi_erase`; `addr1` and `addr2` are comparisons. -/
def eraseBlock (offset : ℕ) : List SpiOp :=
  let addr0 := UInt8.ofNat (offset &&& 0xff)
  let addr1 : UInt8 := if offset &&& 0xff00 > 8 then 1 else 0
  let addr2 : UInt8 := if offset &&& 0xff0000 > 16 then 1 else 0
  [.cmd [0x06], .wait, .cmd [0xd8, addr2, addr1, addr0], .wait]

/-- `spi_erase`. -/
def spiErase (offset n : ℕ) : ℤ × List SpiOp :=
  (0, [.cs true] ++ disableWriteProtection ++ loongsonSpiErase eraseBlock blksize offset n ++
    enableWriteProtection ++ [.cs false])

end CmdSpi

/-! ## §2 What a call should do -/

/-- The blocks that the commands name. -/
def erasedBlocks (blkerase : UInt8) (blksize : ℕ) (ops : List SpiOp) : List ℕ :=
  ops.filterMap fun
    | .cmd [op, a2, a1, a0] => if op = blkerase then some (addrOf a2 a1 a0 / blksize) else none
    | _ => none

/-- Whether the chip select pin is taken from the CPU in the end. -/
def pinTaken (ops : List SpiOp) : Bool :=
  ops.foldl (fun taken op => match op with
    | .cs taken => taken
    | _ => taken) false

/-- **A call is right.** -/
structure SpiEraseRight (blkerase : UInt8) (blksize size offset n : ℕ) (ops : List SpiOp) :
    Prop where
  /-- The commands name the blocks that meet the range. -/
  blocks : .cmd [0xc7] ∉ ops →
    ∀ b, b ∈ erasedBlocks blkerase blksize ops ↔ MeetsBlock blksize offset n b
  /-- The whole chip is erased only when all of it is asked for. -/
  chip : .cmd [0xc7] ∈ ops → offset = 0 ∧ n = size
  /-- What is read fits `loongson_spi_buf`. -/
  fits : ∀ bytes k, .read bytes k ∈ ops → k ≤ 512 * 2048
  /-- The chip is protected. -/
  closed : ∀ c : SpiChip, (c.run ops).status = 0x1c ∧ (c.run ops).wel = false
  /-- The pin is left to the CPU. -/
  released : pinTaken ops = false

variable {one : ℕ → List SpiOp} {named : ℕ → ℕ} {blkerase : UInt8} {ops ops' : List SpiOp}
  {blk limit offset n b fuel size : ℕ} {data : ℕ → UInt8} {c : SpiChip}

/-! ## §3 The loop -/

theorem erasedBlocks_append : erasedBlocks blkerase blk (ops ++ ops') =
    erasedBlocks blkerase blk ops ++ erasedBlocks blkerase blk ops' := List.filterMap_append

/-- **The blocks that are named**: one a stride, the first in any case. -/
theorem mem_erasedBlocks_loop (hone : ∀ o, erasedBlocks blkerase blk (one o) = [named o])
    (hblk : 0 < blk) (hblk' : blk ≤ 65536) (hoffset : offset ≤ 16777216) (hlimit : limit ≤ 16777216)
    (hfuel : limit < offset + fuel * blk) (hpos : 0 < fuel) :
    b ∈ erasedBlocks blkerase blk (spiEraseLoop one blk limit fuel offset) ↔
      ∃ k, (k = 0 ∨ offset + k * blk < limit) ∧ named (offset + k * blk) = b := by
  induction fuel generalizing offset with
  | zero => exact absurd hpos (Nat.lt_irrefl 0)
  | succ fuel ih =>
    rw [Nat.succ_mul] at hfuel
    rw [spiEraseLoop, erasedBlocks_append, hone, List.mem_append, List.mem_singleton,
      Nat.mod_eq_of_lt (by omega)]
    by_cases hgo : offset + blk < limit
    · have hpos' : 0 < fuel := by
        rcases Nat.eq_zero_or_pos fuel with rfl | hpos'
        · omega
        · exact hpos'
      rw [if_pos hgo, ih (by omega) (by omega) hpos']
      constructor
      · rintro (rfl | ⟨k, hk, rfl⟩)
        · exact ⟨0, Or.inl rfl, by rw [Nat.zero_mul, Nat.add_zero]⟩
        · refine ⟨k + 1, Or.inr ?_, ?_⟩
          · rw [Nat.succ_mul]
            rcases hk with rfl | hk <;> omega
          · rw [Nat.succ_mul, Nat.add_comm (k * blk), ← Nat.add_assoc]
      · rintro ⟨k, hk, rfl⟩
        cases k with
        | zero =>
          left
          rw [Nat.zero_mul, Nat.add_zero]
        | succ k =>
          right
          rw [Nat.succ_mul] at hk
          refine ⟨k, Or.inr (by omega), ?_⟩
          rw [Nat.succ_mul, Nat.add_comm (k * blk), ← Nat.add_assoc]
    · rw [if_neg hgo]
      constructor
      · rintro (rfl | hnone)
        · exact ⟨0, Or.inl rfl, by rw [Nat.zero_mul, Nat.add_zero]⟩
        · cases hnone
      · rintro ⟨k, hk, rfl⟩
        left
        have hzero : k = 0 := by
          rcases hk with rfl | hk
          · rfl
          · cases k with
            | zero => rfl
            | succ k =>
              rw [Nat.succ_mul] at hk
              omega
        rw [hzero, Nat.zero_mul, Nat.add_zero]

/-- What the loops send: no other erasure, and nothing that reads or moves the pin. -/
def Plain (op : SpiOp) : Prop := op = .wait ∨ ∃ bytes, op = .cmd bytes ∧ bytes ≠ [0xc7]

theorem plain_loop (hone : ∀ o, ∀ op ∈ one o, Plain op) :
    ∀ op ∈ spiEraseLoop one blk limit fuel offset, Plain op := by
  induction fuel generalizing offset with
  | zero => exact fun op hop => absurd hop List.not_mem_nil
  | succ fuel ih =>
    intro op hop
    rw [spiEraseLoop, List.mem_append] at hop
    rcases hop with hop | hop
    · exact hone _ op hop
    · split at hop
      · exact ih op hop
      · cases hop

theorem plain_loongsonSpiErase (hone : ∀ o, ∀ op ∈ one o, Plain op) :
    ∀ op ∈ loongsonSpiErase one blk offset n, Plain op := plain_loop hone

theorem not_mem_of_plain (h : ∀ op ∈ ops, Plain op) :
    .cmd [0xc7] ∉ ops ∧ ∀ bytes k, SpiOp.read bytes k ∉ ops := by
  refine ⟨fun hop => ?_, fun bytes k hop => ?_⟩
  · rcases h _ hop with heq | ⟨bytes, heq, hne⟩
    · cases heq
    · cases heq
      exact hne rfl
  · rcases h _ hop with heq | ⟨bytes, heq, -⟩ <;> cases heq

theorem pinTaken_plain (h : ∀ op ∈ ops', Plain op) : pinTaken (ops ++ ops') = pinTaken ops := by
  rw [pinTaken, List.foldl_append, ← pinTaken]
  generalize pinTaken ops = taken
  induction ops' with
  | nil => rfl
  | cons op ops' ih =>
    obtain ⟨hop, hrest⟩ := List.forall_mem_cons.mp h
    rw [List.foldl_cons]
    rcases hop with rfl | ⟨bytes, rfl, -⟩ <;> exact ih hrest

/-- Where the names are right up to the end of the range, the strides name what they hit. -/
theorem mem_loongsonSpiErase (hone : ∀ o, erasedBlocks blkerase blk (one o) = [named o])
    (hblk : 0 < blk) (hblk' : blk ≤ 65536) (hdvd : 4294967296 / blk * blk = 4294967296)
    (hrange : offset + n ≤ 16777216) :
    b ∈ erasedBlocks blkerase blk (loongsonSpiErase one blk offset n) ↔
      ∃ k, (k = 0 ∨ k * blk < n) ∧ named (offset + k * blk) = b := by
  have hfuel : 0 < 4294967296 / blk := Nat.div_pos (by omega) hblk
  rw [loongsonSpiErase, Nat.mod_eq_of_lt (by omega), Nat.add_comm n,
    mem_erasedBlocks_loop hone hblk hblk' (by omega) hrange (by omega) hfuel]
  simp only [Nat.add_lt_add_iff_left]

theorem hits_iff_named (hblk : 0 < blk) (hn : 0 < n)
    (hnamed : ∀ o < offset + n, named o = o / blk) :
    (∃ k, (k = 0 ∨ k * blk < n) ∧ named (offset + k * blk) = b) ↔ HitsBlock blk offset n b := by
  have hzero : ∀ k, (k = 0 ∨ k * blk < n) ↔ k * blk < n := fun k =>
    or_iff_right_of_imp fun hk => by rw [hk, Nat.zero_mul]; exact hn
  simp only [hzero, HitsBlock]
  refine exists_congr fun k => and_congr_right fun hk => ?_
  rw [hnamed _ (by omega), stride_div hblk]

/-- The blocks of a range are named exactly where the strides hit them all. -/
theorem blocks_iff (hblk : 0 < blk) (hn : 0 < n)
    (hnamed : ∀ o < offset + n, named o = o / blk) :
    (∀ b, (∃ k, (k = 0 ∨ k * blk < n) ∧ named (offset + k * blk) = b) ↔
      MeetsBlock blk offset n b) ↔ offset % blk + (n - 1) % blk < blk := by
  rw [← hitsBlock_iff hblk hn]
  refine forall_congr' fun b => ?_
  rw [hits_iff_named hblk hn hnamed]
  exact ⟨fun h => h.mpr, fun h => ⟨meetsBlock_of_hits hblk, h⟩⟩

/-- The first stride names a block even if there is no range. -/
theorem pos_of_blocks (h : ∀ b, (∃ k, (k = 0 ∨ k * blk < n) ∧ named (offset + k * blk) = b) ↔
    MeetsBlock blk offset n b) : 0 < n := by
  obtain ⟨x, hx, hlt, -⟩ := (h _).mp ⟨0, Or.inl rfl, rfl⟩
  omega

/-! ## §4 The first driver -/

/-- The block that the first driver names for an address. -/
def flashNamed (o : ℕ) : ℕ := o % 16777216 / 4096

theorem flash_erasedBlocks (o : ℕ) :
    erasedBlocks 0x20 FlashSpi.blksize (FlashSpi.eraseBlock o) = [flashNamed o] := by
  rw [flashNamed, ← addrOf_addr3]
  rfl

theorem flash_plain (o : ℕ) : ∀ op ∈ FlashSpi.eraseBlock o, Plain op := by
  simp [FlashSpi.eraseBlock, Plain, addr3]

/-- A call that verifies, around its erasure. -/
def FlashSpi.around (mid : List SpiOp) (offset n : ℕ) : List SpiOp :=
  [.cs true] ++ disableWriteProtection ++ mid ++ spiRead offset n ++ enableWriteProtection ++
    [.cs false]

variable {mid : List SpiOp}

theorem flash_blocks : erasedBlocks 0x20 FlashSpi.blksize (FlashSpi.around mid offset n) =
    erasedBlocks 0x20 FlashSpi.blksize mid := by
  have hdisable : erasedBlocks 0x20 FlashSpi.blksize disableWriteProtection = [] := rfl
  have hread : erasedBlocks 0x20 FlashSpi.blksize (spiRead offset n) = [] := rfl
  have henable : erasedBlocks 0x20 FlashSpi.blksize enableWriteProtection = [] := rfl
  have hcs : ∀ taken, erasedBlocks 0x20 FlashSpi.blksize [.cs taken] = [] := fun _ => rfl
  simp only [FlashSpi.around, erasedBlocks_append, hdisable, hread, henable, hcs,
    List.nil_append, List.append_nil]

/-- The chip is protected in the end, and the pin left to the CPU. -/
theorem flash_end : (∀ c : SpiChip, (c.run (FlashSpi.around mid offset n)).status = 0x1c ∧
      (c.run (FlashSpi.around mid offset n)).wel = false) ∧
    pinTaken (FlashSpi.around mid offset n) = false := by
  refine ⟨fun c => ?_, ?_⟩
  · rw [FlashSpi.around, run_append, run_append]
    exact run_enableWriteProtection.2
  · rw [FlashSpi.around, pinTaken, List.foldl_append]
    rfl

/-- Around the erasure only the reading is not plain. -/
theorem flash_chip_iff : .cmd [0xc7] ∈ FlashSpi.around mid offset n ↔ .cmd [0xc7] ∈ mid := by
  simp [FlashSpi.around, disableWriteProtection, enableWriteProtection, spiRead]

theorem flash_read_iff {bytes : List UInt8} {k : ℕ} (h : ∀ bytes k, SpiOp.read bytes k ∉ mid) :
    .read bytes k ∈ FlashSpi.around mid offset n ↔
      bytes = [0x0b] ++ addr3 offset ++ [0] ∧ k = n := by
  simp [FlashSpi.around, disableWriteProtection, enableWriteProtection, spiRead, h]

/-- A failed verification returns with the pin taken. -/
theorem flash_unverified (hdata : ¬ ∀ i < n, data i = 0xff) :
    pinTaken (FlashSpi.spiErase offset n data).2 = true := by
  have hpin : ∀ mid : List SpiOp, (∀ op ∈ mid, Plain op) →
      pinTaken ([.cs true] ++ disableWriteProtection ++ mid ++ spiRead offset n) = true := by
    intro mid hmid
    rw [pinTaken, List.foldl_append, ← pinTaken]
    change pinTaken _ = true
    rw [pinTaken_plain hmid]
    rfl
  rw [FlashSpi.spiErase, if_neg hdata]
  split
  · exact hpin _ (plain_loongsonSpiErase flash_plain)
  · -- A chip erase is a command like others, as far as the pin goes.
    rfl

/-- A verified call block by block: it is right if it names the right blocks. -/
theorem flash_right_blocks (hn : n < FlashSpi.flashSize) (hplain : ∀ op ∈ mid, Plain op) :
    SpiEraseRight 0x20 FlashSpi.blksize size offset n (FlashSpi.around mid offset n) ↔
      ∀ b, b ∈ erasedBlocks 0x20 FlashSpi.blksize mid ↔ MeetsBlock FlashSpi.blksize offset n b := by
  obtain ⟨hchip, hread⟩ := not_mem_of_plain hplain
  have hfits : n ≤ 512 * 2048 := Nat.le_of_lt hn
  constructor
  · intro h b
    rw [← h.blocks (mt flash_chip_iff.mp hchip), flash_blocks]
  · intro h
    refine ⟨fun _ b => ?_, fun hc => absurd (flash_chip_iff.mp hc) hchip, ?_, flash_end.1,
      flash_end.2⟩
    · rw [flash_blocks, h]
    · intro bytes k hk
      rw [((flash_read_iff hread).mp hk).2]
      exact hfits

/-- A verified erasure of the chip: it is right if that is asked for and fits the buffer. -/
theorem flash_right_chip :
    SpiEraseRight 0x20 FlashSpi.blksize size offset n
        (FlashSpi.around FlashSpi.chipErase offset n) ↔
      offset = 0 ∧ n = size ∧ n ≤ 512 * 2048 := by
  have hchip : .cmd [0xc7] ∈ FlashSpi.around FlashSpi.chipErase offset n :=
    flash_chip_iff.mpr (by decide)
  have hread : ∀ bytes k, SpiOp.read bytes k ∉ FlashSpi.chipErase := by
    simp [FlashSpi.chipErase]
  constructor
  · intro h
    obtain ⟨hoffset, hn⟩ := h.chip hchip
    exact ⟨hoffset, hn, h.fits _ _ ((flash_read_iff hread).mpr ⟨rfl, rfl⟩)⟩
  · rintro ⟨hoffset, hn, hfits⟩
    refine ⟨fun hnone => absurd hchip hnone, fun _ => ⟨hoffset, hn⟩, ?_, flash_end.1, flash_end.2⟩
    intro bytes k hk
    rw [((flash_read_iff hread).mp hk).2]
    exact hfits

/-- **The first driver**: it erases what is asked for if its strides get into the last block and
    the erasure verifies, or if a chip of one megabyte is to be erased as a whole. -/
theorem flash_right (hsize : size ≤ 16777216) (hrange : offset + n ≤ size) :
    SpiEraseRight 0x20 FlashSpi.blksize size offset n (FlashSpi.spiErase offset n data).2 ↔
      (0 < n ∧ n < FlashSpi.flashSize ∧ offset % 4096 + (n - 1) % 4096 < 4096 ∨
        offset = 0 ∧ n = size ∧ n = FlashSpi.flashSize) ∧ ∀ i < n, data i = 0xff := by
  by_cases hdata : ∀ i < n, data i = 0xff
  · rw [and_iff_left hdata, FlashSpi.spiErase, if_pos hdata]
    by_cases hn : n < FlashSpi.flashSize
    · rw [if_pos hn]
      refine (flash_right_blocks hn (plain_loongsonSpiErase flash_plain)).trans ?_
      have hnamed : ∀ o < offset + n, flashNamed o = o / 4096 := by
        intro o ho
        unfold flashNamed
        omega
      have hmem : ∀ b, b ∈ erasedBlocks 0x20 FlashSpi.blksize
          (loongsonSpiErase FlashSpi.eraseBlock FlashSpi.blksize offset n) ↔
            ∃ k, (k = 0 ∨ k * FlashSpi.blksize < n) ∧
              flashNamed (offset + k * FlashSpi.blksize) = b := fun b =>
        mem_loongsonSpiErase flash_erasedBlocks (by decide) (by decide) (by decide) (by omega)
      simp only [hmem]
      constructor
      · intro h
        have hpos := pos_of_blocks h
        exact Or.inl ⟨hpos, hn, (blocks_iff (by decide) hpos hnamed).mp h⟩
      · rintro (⟨hpos, -, hshort⟩ | ⟨-, -, hall⟩)
        · exact (blocks_iff (by decide) hpos hnamed).mpr hshort
        · exact absurd hall (Nat.ne_of_lt hn)
    · rw [if_neg hn]
      refine flash_right_chip.trans ⟨?_, ?_⟩
      · rintro ⟨hoffset, hall, hfits⟩
        exact Or.inr ⟨hoffset, hall, Nat.le_antisymm hfits (Nat.not_lt.mp hn)⟩
      · rintro (⟨-, hlt, -⟩ | ⟨hoffset, hall, heq⟩)
        · exact absurd hlt hn
        · exact ⟨hoffset, hall, Nat.le_of_eq heq⟩
  · refine iff_of_false (fun h => ?_) fun h => hdata h.2
    have hpin := h.released
    rw [flash_unverified hdata] at hpin
    cases hpin

/-! ## §5 The second driver -/

/-- The block that the second driver names for an address. -/
def cmdNamed (o : ℕ) : ℕ := if o / 65536 % 256 = 0 then 0 else 1

theorem and_ff0000 (o : ℕ) : o &&& 0xff0000 = o / 65536 % 256 * 65536 := by
  have hmask : 0xff0000 = (2 ^ 8 - 1) * 2 ^ 16 := rfl
  have hright : o / 65536 % 256 * 65536 = o / 2 ^ 16 % 2 ^ 8 * 2 ^ 16 := rfl
  rw [hmask, hright]
  apply Nat.eq_of_testBit_eq
  intro i
  simp only [Nat.testBit_and, Nat.testBit_mul_two_pow, Nat.testBit_mod_two_pow,
    Nat.testBit_div_two_pow, Nat.testBit_two_pow_sub_one]
  by_cases hi : 16 ≤ i
  · rw [Nat.sub_add_cancel hi]
    simp [hi, Bool.and_comm]
  · simp [hi]

theorem cmd_erasedBlocks (o : ℕ) :
    erasedBlocks 0xd8 CmdSpi.blksize (CmdSpi.eraseBlock o) = [cmdNamed o] := by
  have hblock : ∀ a2 a1 a0 : UInt8, a1.toNat ≤ 1 → addrOf a2 a1 a0 / 65536 = a2.toNat := by
    intro a2 a1 a0 ha1
    have ha0 := UInt8.toNat_lt a0
    rw [addrOf]
    omega
  have heq : erasedBlocks 0xd8 CmdSpi.blksize (CmdSpi.eraseBlock o) =
      [addrOf (if o &&& 0xff0000 > 16 then 1 else 0) (if o &&& 0xff00 > 8 then 1 else 0)
        (UInt8.ofNat (o &&& 0xff)) / 65536] := rfl
  rw [heq, hblock _ _ _ (by split <;> decide), cmdNamed, and_ff0000]
  by_cases hzero : o / 65536 % 256 = 0
  · rw [if_pos hzero, if_neg (by omega)]
    rfl
  · rw [if_neg hzero, if_pos (by omega)]
    rfl

theorem cmd_plain (o : ℕ) : ∀ op ∈ CmdSpi.eraseBlock o, Plain op := by
  simp [CmdSpi.eraseBlock, Plain]

/-- The second driver is right if it names the right blocks. -/
theorem cmd_right_blocks (hplain : ∀ op ∈ mid, Plain op) :
    SpiEraseRight 0xd8 CmdSpi.blksize size offset n ([.cs true] ++ CmdSpi.disableWriteProtection ++
        mid ++ CmdSpi.enableWriteProtection ++ [.cs false]) ↔
      ∀ b, b ∈ erasedBlocks 0xd8 CmdSpi.blksize mid ↔ MeetsBlock CmdSpi.blksize offset n b := by
  obtain ⟨hchip, hread⟩ := not_mem_of_plain hplain
  have hblocks : erasedBlocks 0xd8 CmdSpi.blksize ([.cs true] ++ CmdSpi.disableWriteProtection ++
      mid ++ CmdSpi.enableWriteProtection ++ [.cs false]) =
        erasedBlocks 0xd8 CmdSpi.blksize mid := by
    have hdisable : erasedBlocks 0xd8 CmdSpi.blksize CmdSpi.disableWriteProtection = [] := rfl
    have henable : erasedBlocks 0xd8 CmdSpi.blksize CmdSpi.enableWriteProtection = [] := rfl
    have hcs : ∀ taken, erasedBlocks 0xd8 CmdSpi.blksize [.cs taken] = [] := fun _ => rfl
    simp only [erasedBlocks_append, hdisable, henable, hcs, List.nil_append, List.append_nil]
  have hnone : .cmd [0xc7] ∉ [.cs true] ++ CmdSpi.disableWriteProtection ++ mid ++
      CmdSpi.enableWriteProtection ++ [.cs false] := by
    simp [CmdSpi.disableWriteProtection, CmdSpi.enableWriteProtection, hchip]
  constructor
  · intro h b
    rw [← h.blocks hnone, hblocks]
  · intro h
    refine ⟨fun _ b => by rw [hblocks, h], fun hc => absurd hc hnone, ?_, fun c => ?_, ?_⟩
    · intro bytes k hk
      simp [CmdSpi.disableWriteProtection, CmdSpi.enableWriteProtection, hread] at hk
    · rw [run_append, run_append]
      simp [CmdSpi.enableWriteProtection, SpiChip.run, SpiChip.step, SpiChip.cmd]
    · rw [pinTaken, List.foldl_append]
      rfl

/-- **The second driver**: it erases what is asked for if that is in the first two blocks of the
    chip and its strides get into the last block. -/
theorem cmd_right (hsize : size ≤ 16777216) (hrange : offset + n ≤ size) :
    SpiEraseRight 0xd8 CmdSpi.blksize size offset n (CmdSpi.spiErase offset n).2 ↔
      0 < n ∧ offset + n ≤ 131072 ∧ offset % 65536 + (n - 1) % 65536 < 65536 := by
  refine (cmd_right_blocks (plain_loongsonSpiErase cmd_plain)).trans ?_
  have hmem : ∀ b, b ∈ erasedBlocks 0xd8 CmdSpi.blksize
      (loongsonSpiErase CmdSpi.eraseBlock CmdSpi.blksize offset n) ↔
        ∃ k, (k = 0 ∨ k * CmdSpi.blksize < n) ∧ cmdNamed (offset + k * CmdSpi.blksize) = b :=
    fun b => mem_loongsonSpiErase cmd_erasedBlocks (by decide) (by decide) (by decide) (by omega)
  have hlow : offset + n ≤ 131072 → ∀ o < offset + n, cmdNamed o = o / 65536 := by
    intro hle o ho
    unfold cmdNamed
    split <;> omega
  simp only [hmem]
  constructor
  · intro h
    have hpos := pos_of_blocks h
    -- No block but the first two is named.
    obtain ⟨k, -, hk⟩ := (h ((offset + (n - 1)) / 65536)).mpr
      ⟨offset + (n - 1), by omega, by omega, rfl⟩
    have hle : offset + n ≤ 131072 := by
      unfold cmdNamed at hk
      split at hk <;> omega
    exact ⟨hpos, hle, (blocks_iff (by decide) hpos (hlow hle)).mp h⟩
  · rintro ⟨hpos, hle, hshort⟩
    exact (blocks_iff (by decide) hpos (hlow hle)).mpr hshort

/-! ## §6 Both -/

/-- **The two calls** for a range of a chip, whatever is read back. -/
theorem spiErase_exact (size offset n : ℕ) (data : ℕ → UInt8) (hsize : size ≤ 16777216)
    (hrange : offset + n ≤ size) :
    (SpiEraseRight 0x20 FlashSpi.blksize size offset n (FlashSpi.spiErase offset n data).2 ↔
      (0 < n ∧ n < FlashSpi.flashSize ∧ offset % 4096 + (n - 1) % 4096 < 4096 ∨
        offset = 0 ∧ n = size ∧ n = FlashSpi.flashSize) ∧ ∀ i < n, data i = 0xff) ∧
    (SpiEraseRight 0xd8 CmdSpi.blksize size offset n (CmdSpi.spiErase offset n).2 ↔
      0 < n ∧ offset + n ≤ 131072 ∧ offset % 65536 + (n - 1) % 65536 < 65536) :=
  ⟨flash_right hsize hrange, cmd_right hsize hrange⟩

/-- A block at the beginning of a chip of 16 megabytes that is erased. -/
theorem spiErase_firstBlock :
    SpiEraseRight 0x20 FlashSpi.blksize 0x1000000 0 4096
        (FlashSpi.spiErase 0 4096 fun _ => 0xff).2 ∧
      SpiEraseRight 0xd8 CmdSpi.blksize 0x1000000 0 4096 (CmdSpi.spiErase 0 4096).2 := by
  have hexact := spiErase_exact 0x1000000 0 4096 (fun _ => 0xff) (by decide) (by decide)
  exact ⟨hexact.1.mpr ⟨Or.inl (by decide), fun _ _ => rfl⟩, hexact.2.mpr (by decide)⟩

/-- The first driver leaves a block out and ends with the chip writable when the erasure does not
    verify; the second names block 1 for block 2. -/
theorem spiErase_wrong :
    ¬ SpiEraseRight 0x20 FlashSpi.blksize 0x1000000 0 4096
        (FlashSpi.spiErase 0 4096 fun _ => 0).2 ∧
      ¬ SpiEraseRight 0xd8 CmdSpi.blksize 0x1000000 0x20000 0x10000
        (CmdSpi.spiErase 0x20000 0x10000).2 := by
  constructor
  · intro h
    have hpin : pinTaken (FlashSpi.spiErase 0 4096 fun _ => 0).2 = true :=
      flash_unverified fun hall => absurd (hall 0 (by decide)) (by decide)
    rw [h.released] at hpin
    cases hpin
  · intro h
    have hle := ((cmd_right (by decide) (by decide)).mp h).2.1
    exact absurd hle (by decide)

end Pmon.Flash
