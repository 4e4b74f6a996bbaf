import Pmon.Flash.Program
import Pmon.Flash.SpiDriver
import Pmon.Lib.Strides

/-!
# The SPI flash of the LS2K

`fl_erase_device` and `fl_program_device` of `Targets/LS2K/dev/spi_w.c`, as the commands that they
send, and the cells of the chip.  The setting of the controller and delays are left out.

## Key results

- `pageLoop_pairs`, `byteLoop_pairs`: the two ways of writing program the same.
- `spiEraseArea_mem`: the sectors that are erased.
- `flDevice_exact`: when the flash holds the data.
-/

namespace Pmon.Flash.SpiW

open Pmon.Lib

/-! ## §1 The chip -/

/-- The cells of a chip and what its status register shows.  It takes nothing while it is busy, and
    neither erases nor programs while a block is protected. -/
structure NorChip where
  size : ℕ
  size_le : size ≤ 16777216
  /-- It has whole sectors. -/
  sectors : 4096 ∣ size
  mem : ℕ → UInt8
  wel : Bool
  busy : Bool
  protection : UInt8
  /-- The bytes that were programmed, in their order. -/
  programmed : List (ℕ × UInt8)

/-- A byte is programmed. -/
def clearBits (mem : ℕ → UInt8) (p : ℕ × UInt8) : ℕ → UInt8 :=
  fun y => if y = p.1 then mem y &&& p.2 else mem y

/-- A sector is erased. -/
def eraseSector (mem : ℕ → UInt8) (a : ℕ) : ℕ → UInt8 :=
  fun y => if y / 4096 = a / 4096 then 0xff else mem y

/-- Where the bytes of a page program go. -/
def pagePairs (a : ℕ) : List UInt8 → List (ℕ × UInt8)
  | [] => []
  | b :: data => (a, b) :: pagePairs (a / 256 * 256 + (a + 1) % 256) data

/-- An address of three bytes, of which the chip looks at as many bits as it has. -/
def NorChip.cell (c : NorChip) (a2 a1 a0 : UInt8) : ℕ := addrOf a2 a1 a0 % c.size

/-- A command. -/
def NorChip.cmd (c : NorChip) (bytes : List UInt8) : NorChip :=
  if c.busy then c
  else match bytes with
    | [0x06] => { c with wel := true }
    | [0x01, v] => if c.wel then { c with wel := false, busy := true, protection := v } else c
    | [0x20, a2, a1, a0] =>
      if c.wel && c.protection == 0 then
        { c with wel := false, busy := true, mem := eraseSector c.mem (c.cell a2 a1 a0) }
      else c
    | 0x02 :: a2 :: a1 :: a0 :: data =>
      if c.wel && c.protection == 0 then
        { c with
          wel := false
          busy := true
          mem := (pagePairs (c.cell a2 a1 a0) data).foldl clearBits c.mem
          programmed := c.programmed ++ pagePairs (c.cell a2 a1 a0) data }
      else c
    | _ => c

/-- The status is read until the chip is not busy. -/
def NorChip.wait (c : NorChip) : NorChip := { c with busy := false }

def NorChip.step (c : NorChip) : SpiOp → NorChip
  | .cmd bytes => c.cmd bytes
  | .wait => c.wait
  | _ => c

def NorChip.run (c : NorChip) (ops : List SpiOp) : NorChip := ops.foldl NorChip.step c

/-! ## §2 `spi_w.c` -/

def setWren : List SpiOp := [.wait, .cmd [0x06]]

def writeSr (val : UInt8) : List SpiOp := setWren ++ [.wait, .cmd [0x01, val]]

/-- The body of the loop of `spi_erase_area`. -/
def eraseBody (addr : ℕ) : List SpiOp :=
  setWren ++ (writeSr 0 ++ (.wait :: (setWren ++ [.cmd ([0x20] ++ addr3 addr), .wait])))

/-- The loop of `spi_erase_area`. -/
def spiEraseLoop (eaddr sectorsize : ℕ) : (fuel addr : ℕ) → List SpiOp
  | 0, _ => []
  | fuel + 1, addr =>
    if addr < eaddr then
      eraseBody addr ++ spiEraseLoop eaddr sectorsize fuel ((addr + sectorsize) % 4294967296)
    else []

/-- `spi_erase_area`; there are no more rounds than addresses. -/
def spiEraseArea (saddr eaddr sectorsize : ℕ) : List SpiOp :=
  spiEraseLoop eaddr sectorsize eaddr saddr

def spiWriteByte (addr : ℕ) (data : UInt8) : List SpiOp :=
  setWren ++ [.wait, .cmd ([0x02] ++ addr3 addr ++ [data])]

/-- The size that `spi_write_bytes` writes and returns: no more than what is left of the page. -/
def pageSize (addr size : ℕ) : ℕ := if 256 - addr % 256 < size then 256 - addr % 256 else size

def spiWriteBytes (addr : ℕ) (buffer : List UInt8) : List SpiOp :=
  setWren ++ [.cmd ([0x02] ++ addr3 addr ++ buffer.take (pageSize addr buffer.length)), .wait]

/-- The loop of `spi_write_area` with `LS2H_SPI_WRITEBYTES`; each round writes a byte at least. -/
def pageLoop : (fuel flashaddr : ℕ) → List UInt8 → List SpiOp
  | 0, _, _ => []
  | fuel + 1, flashaddr, buffer =>
    if 0 < buffer.length then
      let cnt := pageSize flashaddr buffer.length
      spiWriteBytes flashaddr buffer ++ pageLoop fuel (flashaddr + cnt) (buffer.drop cnt)
    else []

/-- The loop of `spi_write_area` without it. -/
def byteLoop (flashaddr : ℕ) : List UInt8 → List SpiOp
  | [] => []
  | b :: buffer => spiWriteByte flashaddr b ++ byteLoop (flashaddr + 1) buffer

/-- `spi_write_area`, in one build or the other. -/
def spiWriteArea (writebytes : Bool) (flashaddr : ℕ) (buffer : List UInt8) : List SpiOp :=
  writeSr 0 ++
    if writebytes then pageLoop buffer.length flashaddr buffer else byteLoop flashaddr buffer

/-- The offset in the flash of an address of a map. -/
def flOffset (map : FlMap) (base : BitVec 32) : ℕ :=
  ((base - map.flMapBase).toNat + map.flMapOffset) % 4294967296

/-- `fl_program_device`; an address of no map is not looked for. -/
def flProgramDevice (writebytes : Bool) (maps : List FlMap) (base : BitVec 32)
    (data : List UInt8) : Option (List SpiOp) :=
  (flFindMap maps base).map fun map => spiWriteArea writebytes (flOffset map base) data

/-- `fl_erase_device`. -/
def flEraseDevice (maps : List FlMap) (base : BitVec 32) (size : ℕ) : Option (List SpiOp) :=
  (flFindMap maps base).map fun map =>
    spiEraseArea (flOffset map base) ((flOffset map base + size) % 4294967296) 0x1000

/-! ## §3 Single commands -/

variable {c : NorChip} {ops ops' : List SpiOp} {a off n fuel y : ℕ} {b : UInt8}
  {data data' : List UInt8} {mem : ℕ → UInt8}

theorem run_append : c.run (ops ++ ops') = (c.run ops).run ops' := List.foldl_append

theorem run_cons {op : SpiOp} : c.run (op :: ops) = (c.step op).run ops := rfl

theorem run_nil : c.run [] = c := rfl

theorem run_setWren : c.run setWren = { c with wel := true, busy := false } := rfl

theorem run_writeSr (val : UInt8) :
    c.run (writeSr val) = { c with wel := false, busy := true, protection := val } := rfl

theorem cell_addr3 (ha : a < c.size) :
    c.cell (UInt8.ofNat (a / 65536)) (UInt8.ofNat (a / 256)) (UInt8.ofNat a) = a := by
  have := c.size_le
  have hlow : a % 16777216 = a := Nat.mod_eq_of_lt (by omega)
  rw [NorChip.cell, addrOf_addr3, hlow, Nat.mod_eq_of_lt ha]

/-- A sector is erased, whatever the chip was doing. -/
theorem run_eraseBody (ha : a < c.size) : c.run (eraseBody a) =
    { c with wel := false, busy := false, protection := 0, mem := eraseSector c.mem a } := by
  have hcell := cell_addr3 ha
  rw [eraseBody, run_append, run_setWren, run_append, run_writeSr, run_cons, run_append]
  simp only [NorChip.step, run_setWren, NorChip.wait]
  simp only [run_cons, run_nil, NorChip.step, NorChip.cmd, NorChip.wait, addr3, List.cons_append,
    List.nil_append, Bool.false_eq_true, if_false, beq_self_eq_true, Bool.and_self, if_true]
  simp only [NorChip.cell] at hcell ⊢
  rw [hcell]

/-- Bytes are programmed, if no block is protected. -/
theorem run_program (ha : a < c.size) (hp : c.protection = 0) :
    c.run (setWren ++ [.cmd ([0x02] ++ addr3 a ++ data)]) =
      { c with
        wel := false
        busy := true
        mem := (pagePairs a data).foldl clearBits c.mem
        programmed := c.programmed ++ pagePairs a data } := by
  have hcell := cell_addr3 ha
  rw [run_append, run_setWren]
  simp only [run_cons, run_nil, NorChip.step, NorChip.cmd, addr3, List.cons_append,
    List.nil_append, Bool.false_eq_true, if_false, hp, beq_self_eq_true, Bool.and_self, if_true]
  simp only [NorChip.cell] at hcell ⊢
  rw [hcell]

/-! ## §4 Programming -/

/-- Bytes and the addresses they are meant for. -/
def wanted (off : ℕ) : List UInt8 → List (ℕ × UInt8)
  | [] => []
  | b :: data => (off, b) :: wanted (off + 1) data

theorem wanted_append :
    wanted off (data ++ data') = wanted off data ++ wanted (off + data.length) data' := by
  induction data generalizing off with
  | nil => rfl
  | cons b data ih =>
    rw [List.cons_append, wanted, ih, wanted, List.length_cons, List.cons_append,
      Nat.add_assoc off 1, Nat.add_comm 1]

/-- Within a page bytes go where they are meant to. -/
theorem pagePairs_eq (h : a % 256 + data.length ≤ 256) : pagePairs a data = wanted a data := by
  induction data generalizing a with
  | nil => rfl
  | cons b data ih =>
    rw [List.length_cons] at h
    rw [pagePairs, wanted]
    cases data with
    | nil => rfl
    | cons b' data =>
      rw [List.length_cons] at h
      have hnext : a / 256 * 256 + (a + 1) % 256 = a + 1 := by omega
      rw [hnext, ih (by rw [List.length_cons]; omega)]

theorem pageSize_le : pageSize a n ≤ n := by
  unfold pageSize
  split <;> omega

theorem pageSize_pos (hn : 0 < n) : 0 < pageSize a n := by
  unfold pageSize
  split <;> omega

theorem pageSize_page : a % 256 + pageSize a n ≤ 256 := by
  unfold pageSize
  split <;> omega

/-- **Page by page** the bytes are programmed as they are meant. -/
theorem pageLoop_pairs (hfit : a + data.length ≤ c.size) (hp : c.protection = 0)
    (hfuel : data.length ≤ fuel) :
    (c.run (pageLoop fuel a data)).programmed = c.programmed ++ wanted a data ∧
      (c.run (pageLoop fuel a data)).mem = (wanted a data).foldl clearBits c.mem := by
  induction fuel generalizing c a data with
  | zero =>
    rw [List.length_eq_zero_iff.mp (Nat.le_zero.mp hfuel)]
    exact ⟨(List.append_nil _).symm, rfl⟩
  | succ fuel ih =>
    rw [pageLoop]
    by_cases hpos : 0 < data.length
    · rw [if_pos hpos]
      have hcnt := pageSize_pos (a := a) hpos
      have hle := pageSize_le (a := a) (n := data.length)
      have hpage := pageSize_page (a := a) (n := data.length)
      dsimp only
      generalize hk : pageSize a data.length = k at hcnt hle hpage ⊢
      have htake : (data.take k).length = k := List.length_take_of_le hle
      have hdrop : (data.drop k).length = data.length - k := List.length_drop
      have hsplit : wanted a data = wanted a (data.take k) ++ wanted (a + k) (data.drop k) := by
        have happend : wanted a (data.take k ++ data.drop k) =
            wanted a (data.take k) ++ wanted (a + (data.take k).length) (data.drop k) :=
          wanted_append
        rw [List.take_append_drop, htake] at happend
        exact happend
      have hbytes : c.run (spiWriteBytes a data) =
          { c with
            wel := false
            busy := false
            mem := (wanted a (data.take k)).foldl clearBits c.mem
            programmed := c.programmed ++ wanted a (data.take k) } := by
        have heq : spiWriteBytes a data =
            (setWren ++ [.cmd ([0x02] ++ addr3 a ++ data.take k)]) ++ [.wait] := by
          rw [spiWriteBytes, hk, List.append_assoc]
          rfl
        rw [heq, run_append, run_program (by omega) hp, pagePairs_eq (by rw [htake]; exact hpage)]
        rfl
      rw [run_append, hbytes, hsplit, List.foldl_append, ← List.append_assoc]
      exact ih (by simp only [hdrop]; omega) hp (by rw [hdrop]; omega)
    · rw [if_neg hpos, List.length_eq_zero_iff.mp (Nat.eq_zero_of_not_pos hpos)]
      exact ⟨(List.append_nil _).symm, rfl⟩

/-- **Byte by byte** as well. -/
theorem byteLoop_pairs (hfit : a + data.length ≤ c.size) (hp : c.protection = 0) :
    (c.run (byteLoop a data)).programmed = c.programmed ++ wanted a data ∧
      (c.run (byteLoop a data)).mem = (wanted a data).foldl clearBits c.mem := by
  induction data generalizing c a with
  | nil => exact ⟨(List.append_nil _).symm, rfl⟩
  | cons b data ih =>
    rw [List.length_cons] at hfit
    have hbyte : c.run (spiWriteByte a b) =
        { c with
          wel := false
          busy := true
          mem := clearBits c.mem (a, b)
          programmed := c.programmed ++ [(a, b)] } := by
      -- The chip is not busy behind `set_wren`, so the second wait does nothing.
      have hsame : c.run (spiWriteByte a b) =
          c.run (setWren ++ [.cmd ([0x02] ++ addr3 a ++ [b])]) := rfl
      rw [hsame, run_program (by omega) hp]
      rfl
    have hrest : a + 1 + data.length ≤ c.size := by omega
    have happend : c.programmed ++ (a, b) :: wanted (a + 1) data =
        c.programmed ++ [(a, b)] ++ wanted (a + 1) data := List.append_cons _ _ _
    rw [byteLoop, run_append, hbyte, wanted, List.foldl_cons, happend]
    exact ih (by exact hrest) (by exact hp)

/-- **Either build** programs the bytes as they are meant. -/
theorem spiWriteArea_pairs (writebytes : Bool) (hfit : a + data.length ≤ c.size) :
    (c.run (spiWriteArea writebytes a data)).programmed = c.programmed ++ wanted a data ∧
      (c.run (spiWriteArea writebytes a data)).mem = (wanted a data).foldl clearBits c.mem := by
  rw [spiWriteArea, run_append, run_writeSr]
  cases writebytes with
  | true => exact pageLoop_pairs (by exact hfit) rfl (Nat.le_refl _)
  | false => exact byteLoop_pairs (by exact hfit) rfl

/-- What is in a cell then. -/
theorem foldl_wanted : (wanted off data).foldl clearBits mem y =
    if off ≤ y then (data[y - off]?).elim (mem y) (mem y &&& ·) else mem y := by
  induction data generalizing off mem with
  | nil => simp [wanted]
  | cons b data ih =>
    rw [wanted, List.foldl_cons, ih, clearBits]
    rcases Nat.lt_trichotomy y off with hlt | rfl | hlt
    · rw [if_neg (by omega), if_neg (by omega), if_neg (by omega)]
    · rw [if_neg (by omega), if_pos rfl, if_pos (Nat.le_refl y), Nat.sub_self]
      rfl
    · have hsub : y - off = y - (off + 1) + 1 := by omega
      rw [if_pos (by omega), if_neg (by omega), if_pos (by omega), hsub, List.getElem?_cons_succ]

theorem foldl_wanted_inside {i : ℕ} (hi : i < data.length) :
    (wanted off data).foldl clearBits mem (off + i) = mem (off + i) &&& data[i] := by
  rw [foldl_wanted, if_pos (by omega), Nat.add_sub_cancel_left, List.getElem?_eq_getElem hi]
  rfl

theorem foldl_wanted_outside (hy : y < off ∨ off + data.length ≤ y) :
    (wanted off data).foldl clearBits mem y = mem y := by
  rw [foldl_wanted]
  split
  · rw [List.getElem?_eq_none (by omega)]
    rfl
  · rfl

/-! ## §5 Erasing -/

/-- The cells that the loop leaves. -/
theorem spiEraseLoop_mem {eaddr : ℕ} (fuel : ℕ) (hend : eaddr ≤ c.size)
    (hfuel : eaddr ≤ a + fuel * 4096) :
    (HitsBlock 4096 a (eaddr - a) (y / 4096) →
      (c.run (spiEraseLoop eaddr 4096 fuel a)).mem y = 0xff) ∧
    (¬ HitsBlock 4096 a (eaddr - a) (y / 4096) →
      (c.run (spiEraseLoop eaddr 4096 fuel a)).mem y = c.mem y) ∧
    (c.run (spiEraseLoop eaddr 4096 fuel a)).size = c.size := by
  have hsize := c.size_le
  induction fuel generalizing c a with
  | zero =>
    have hzero : eaddr - a = 0 := by omega
    rw [hzero]
    exact ⟨fun h => absurd h not_hits_zero, fun _ => rfl, rfl⟩
  | succ fuel ih =>
    rw [Nat.succ_mul] at hfuel
    rw [spiEraseLoop]
    by_cases ha : a < eaddr
    · rw [if_pos ha, Nat.mod_eq_of_lt (by omega), run_append, run_eraseBody (by omega),
        hitsBlock_step (by decide) (by omega), Nat.sub_sub]
      generalize hc' : ({ c with
        wel := false, busy := false, protection := 0, mem := eraseSector c.mem a } : NorChip) = c'
      have hmem : c'.mem = eraseSector c.mem a := by rw [← hc']
      have hsize' : c'.size = c.size := by rw [← hc']
      obtain ⟨hhit, hmiss, hkeep⟩ := ih (c := c') (a := a + 4096) (by omega) (by omega) (by omega)
      refine ⟨fun h => ?_, fun h => ?_, by rw [hkeep, hsize']⟩
      · by_cases hrest : HitsBlock 4096 (a + 4096) (eaddr - (a + 4096)) (y / 4096)
        · exact hhit hrest
        · have hfirst : a / 4096 = y / 4096 := h.resolve_right hrest
          rw [hmiss hrest, hmem, eraseSector, if_pos hfirst.symm]
      · rw [not_or] at h
        rw [hmiss h.2, hmem, eraseSector, if_neg (Ne.symm h.1)]
    · have hzero : eaddr - a = 0 := by omega
      rw [if_neg ha, hzero]
      exact ⟨fun h => absurd h not_hits_zero, fun _ => rfl, rfl⟩

/-- **The sectors that are erased** are those that a stride from the start hits. -/
theorem spiEraseArea_mem (hfit : off + n ≤ c.size) :
    (HitsBlock 4096 off n (y / 4096) →
      (c.run (spiEraseArea off (off + n) 4096)).mem y = 0xff) ∧
    (¬ HitsBlock 4096 off n (y / 4096) →
      (c.run (spiEraseArea off (off + n) 4096)).mem y = c.mem y) ∧
    (c.run (spiEraseArea off (off + n) 4096)).size = c.size := by
  have hmem := spiEraseLoop_mem (c := c) (a := off) (y := y) (off + n) hfit (by omega)
  rw [Nat.add_sub_cancel_left] at hmem
  exact hmem

/-! ## §6 Both -/

/-- The last stride gets into the last sector, or the bytes there can be programmed over what it
    holds. -/
def LastSectorReady (mem : ℕ → UInt8) (off : ℕ) (data : List UInt8) : Prop :=
  off % 4096 + (data.length - 1) % 4096 < 4096 ∨
    ∀ (i : ℕ) (hi : i < data.length), (off + i) / 4096 = (off + (data.length - 1)) / 4096 →
      mem (off + i) &&& data[i] = data[i]

/-- **The flash after the two calls.** -/
theorem erased_written (writebytes : Bool) (hfit : off + data.length ≤ c.size) :
    let c' := (c.run (spiEraseArea off (off + data.length) 4096)).run
      (spiWriteArea writebytes off data)
    ((∀ (i : ℕ) (hi : i < data.length), c'.mem (off + i) = data[i]) ↔
      LastSectorReady c.mem off data) ∧
    ∀ y, ¬ MeetsBlock 4096 off data.length (y / 4096) → c'.mem y = c.mem y := by
  intro c'
  have hsize : (c.run (spiEraseArea off (off + data.length) 4096)).size = c.size :=
    (spiEraseArea_mem (y := 0) hfit).2.2
  have hmem : c'.mem = (wanted off data).foldl clearBits
      (c.run (spiEraseArea off (off + data.length) 4096)).mem :=
    (spiWriteArea_pairs writebytes (by rw [hsize]; exact hfit)).2
  constructor
  · -- A byte of a sector that was erased is right, and one of another is where it fits.
    have hbyte : ∀ (i : ℕ) (hi : i < data.length), c'.mem (off + i) = data[i] ↔
        (HitsBlock 4096 off data.length ((off + i) / 4096) ∨
          c.mem (off + i) &&& data[i] = data[i]) := by
      intro i hi
      obtain ⟨hhit, hmiss, -⟩ := spiEraseArea_mem (y := off + i) hfit
      rw [hmem, foldl_wanted_inside hi]
      by_cases hb : HitsBlock 4096 off data.length ((off + i) / 4096)
      · rw [hhit hb]
        exact iff_of_true (erased_and _) (Or.inl hb)
      · rw [hmiss hb]
        exact (or_iff_right hb).symm
    have hlast (i : ℕ) (hi : i < data.length) :=
      @not_hits_iff 4096 off data.length (off + i) (by decide) (by omega) (by omega)
    constructor
    · intro h
      by_cases hshort : off % 4096 + (data.length - 1) % 4096 < 4096
      · exact Or.inl hshort
      · refine Or.inr fun i hi heq => ?_
        exact ((hbyte i hi).mp (h i hi)).resolve_left
          ((hlast i hi).mpr ⟨Nat.not_lt.mp hshort, heq⟩)
    · intro h i hi
      refine (hbyte i hi).mpr ?_
      by_cases hb : HitsBlock 4096 off data.length ((off + i) / 4096)
      · exact Or.inl hb
      · obtain ⟨hlong, heq⟩ := (hlast i hi).mp hb
        rcases h with hshort | hover
        · exact absurd hshort (Nat.not_lt.mpr hlong)
        · exact Or.inr (hover i hi heq)
  · intro y hy
    have hb : ¬ HitsBlock 4096 off data.length (y / 4096) := mt (meetsBlock_of_hits (by decide)) hy
    have hout : y < off ∨ off + data.length ≤ y := by
      by_contra! hin
      exact hy ⟨y, hin.1, hin.2, rfl⟩
    rw [hmem, foldl_wanted_outside hout, (spiEraseArea_mem hfit).2.1 hb]

/-- **Erasing and programming a range of the flash**, whatever the chip was doing before: the flash
    holds the data exactly if the last sector is ready for it; other sectors keep what they hold;
    and the two builds program the same bytes at the same addresses. -/
theorem flDevice_exact (maps : List FlMap) (map : FlMap) (base : BitVec 32) (c : NorChip)
    (data : List UInt8) (hmap : flFindMap maps base = some map)
    (hfit : flOffset map base + data.length ≤ c.size) :
    ∃ (erase : List SpiOp) (program : Bool → List SpiOp),
      flEraseDevice maps base data.length = some erase ∧
      (∀ writebytes, flProgramDevice writebytes maps base data = some (program writebytes)) ∧
      (∀ writebytes, (∀ (i : ℕ) (hi : i < data.length),
          ((c.run erase).run (program writebytes)).mem (flOffset map base + i) = data[i]) ↔
        LastSectorReady c.mem (flOffset map base) data) ∧
      (∀ writebytes y, ¬ MeetsBlock 4096 (flOffset map base) data.length (y / 4096) →
        ((c.run erase).run (program writebytes)).mem y = c.mem y) ∧
      ∀ writebytes (c' : NorChip), c'.size = c.size →
        (c'.run (program writebytes)).programmed =
          c'.programmed ++ wanted (flOffset map base) data := by
  have hsize := c.size_le
  have hend : (flOffset map base + data.length) % 4294967296 = flOffset map base + data.length :=
    Nat.mod_eq_of_lt (by omega)
  refine ⟨spiEraseArea (flOffset map base) (flOffset map base + data.length) 0x1000,
    fun writebytes => spiWriteArea writebytes (flOffset map base) data, ?_, ?_, ?_, ?_, ?_⟩
  · rw [flEraseDevice, hmap, Option.map_some, hend]
  · intro writebytes
    rw [flProgramDevice, hmap, Option.map_some]
  · exact fun writebytes => (erased_written writebytes hfit).1
  · exact fun writebytes => (erased_written writebytes hfit).2
  · intro writebytes c' hc'
    exact (spiWriteArea_pairs writebytes (by rw [hc']; exact hfit)).1

/-- A chip of a megabyte that holds zeros. -/
def zeroChip : NorChip where
  size := 0x100000
  size_le := by decide
  sectors := ⟨256, rfl⟩
  mem := fun _ => 0
  wel := false
  busy := false
  protection := 0x1c
  programmed := []

/-- The flash in the boot address space. -/
def bootMap : FlMap where
  flMapBase := 0xbfc00000
  flMapSize := 0x100000
  flMapWidth := 1
  flMapChips := 1
  flMapBus := .bus8
  flMapOffset := 0
  width_pos := Nat.one_pos
  chips_pos := Nat.one_pos
  end_le := by decide
  size_lt := by decide

theorem bootMap_found {a : BitVec 32} (ha : bootMap.Contains a) :
    flFindMap [bootMap] a = some bootMap :=
  List.find?_cons_of_pos (decide_eq_true ha)

/-- Two bytes across the end of the first sector: the second sector is not erased. -/
theorem flDevice_twoSectors : flFindMap [bootMap] 0xbfc00fff = some bootMap ∧
    flOffset bootMap 0xbfc00fff = 0xfff ∧
    ∀ writebytes, ∃ erase program, flEraseDevice [bootMap] 0xbfc00fff 2 = some erase ∧
      flProgramDevice writebytes [bootMap] 0xbfc00fff [1, 1] = some program ∧
      ¬ ∀ (i : ℕ) (hi : i < 2), ((zeroChip.run erase).run program).mem (0xfff + i) = [1, 1][i] := by
  have hfound : flFindMap [bootMap] 0xbfc00fff = some bootMap := bootMap_found (by decide)
  refine ⟨hfound, by decide, fun writebytes => ⟨spiEraseArea 0xfff 0x1001 4096,
    spiWriteArea writebytes 0xfff [1, 1], ?_, ?_, fun h => ?_⟩⟩
  · rw [flEraseDevice, hfound]
    rfl
  · rw [flProgramDevice, hfound]
    rfl
  · have hready := (@erased_written zeroChip 0xfff [1, 1] writebytes (by decide)).1.mp h
    rcases hready with hshort | hover
    · exact absurd hshort (by decide)
    · exact absurd (hover 1 (by decide) (by decide)) (by decide)

/-- Four bytes are written within a sector. -/
theorem flDevice_exact_boot : ∃ (erase : List SpiOp) (program : Bool → List SpiOp),
    flEraseDevice [bootMap] 0xbfc01000 4 = some erase ∧
    (∀ writebytes, flProgramDevice writebytes [bootMap] 0xbfc01000 [1, 2, 3, 4] =
      some (program writebytes)) ∧
    ∀ writebytes, ((zeroChip.run erase).run (program writebytes)).mem 0x1002 = 3 := by
  obtain ⟨erase, program, herase, hprogram, hdata, -, -⟩ := flDevice_exact [bootMap] bootMap
    0xbfc01000 zeroChip [1, 2, 3, 4] (bootMap_found (by decide)) (by decide)
  exact ⟨erase, program, herase, hprogram, fun writebytes =>
    (hdata writebytes).mpr (Or.inl (by decide)) 2 (by decide)⟩

end Pmon.Flash.SpiW
