import Mathlib.Data.List.Basic

/-!
# The SPI flash drivers

`spi_program` and `spi_erase` of `pmon/dev/flash_spi.c`, and `spi_erase` of `pmon/cmds/cmd_spi.c`,
as the commands that they send; and what the chip makes of the commands.  The setting of the pins
and of the controller, delays and the dots on the console are left out.

## Key results

- `run_disableWriteProtection`: the chip takes commands then.
- `run_spiWrite`, `run_spiAaiWrite`: what the two ways of writing program.
-/

namespace Pmon.Flash

/-! ## §1 The chip -/

inductive SpiOp where
  /-- The chip select pin is taken from the CPU, or left to it. -/
  | cs (taken : Bool)
  /-- The bytes of a command, between `set_cs (0)` and `set_cs (1)`. -/
  | cmd (bytes : List UInt8)
  /-- `spi_wait`. -/
  | wait
  /-- A command of which the answer is read, so many bytes of it. -/
  | read (bytes : List UInt8) (n : ℕ)
deriving DecidableEq

/-- An address in three bytes. -/
def addr3 (a : ℕ) : List UInt8 := [UInt8.ofNat (a / 65536), UInt8.ofNat (a / 256), UInt8.ofNat a]

def addrOf (a2 a1 a0 : UInt8) : ℕ := a2.toNat * 65536 + a1.toNat * 256 + a0.toNat

/-- The chip: whether it lets its cells and its status be written, the status, the address of the
    auto address increment while it lasts, and the bytes it has programmed. -/
structure SpiChip where
  wel : Bool
  ewsr : Bool
  status : UInt8
  aai : Option ℕ
  programmed : List (ℕ × UInt8)

/-- Two bytes from an address on. -/
def SpiChip.pair (c : SpiChip) (a : ℕ) (b b' : UInt8) : SpiChip :=
  { c with
    aai := some ((a + 2) % 16777216)
    programmed := c.programmed ++ [(a, b), ((a + 1) % 16777216, b')] }

/-- A command. -/
def SpiChip.cmd (c : SpiChip) : List UInt8 → SpiChip
  | [0x06] => { c with wel := true }
  | [0x04] => { c with wel := false, aai := none }
  | [0x50] => { c with ewsr := true }
  | [0x01, v] =>
    if c.wel || c.ewsr then { c with wel := false, ewsr := false, status := v } else c
  | [0x02, a2, a1, a0, b] =>
    if c.wel && c.status == 0 then
      { c with wel := false, programmed := c.programmed ++ [(addrOf a2 a1 a0, b)] }
    else c
  | [0xad, a2, a1, a0, b, b'] =>
    if c.wel && c.status == 0 then c.pair (addrOf a2 a1 a0) b b' else c
  | [0xad, b, b'] =>
    match c.aai with
    | some a => c.pair a b b'
    | none => c
  | _ => c

def SpiChip.step (c : SpiChip) : SpiOp → SpiChip
  | .cmd bytes => c.cmd bytes
  | _ => c

def SpiChip.run (c : SpiChip) (ops : List SpiOp) : SpiChip := ops.foldl SpiChip.step c

/-! ## §2 `flash_spi.c` -/

/-- `loongson_disabel_writeprotection`. -/
def disableWriteProtection : List SpiOp := [.cmd [0x50], .cmd [0x01, 0], .wait, .cmd [0x06]]

/-- `loongson_enabel_writeprotection`. -/
def enableWriteProtection : List SpiOp := [.cmd [0x06], .cmd [0x01, 0x1c], .wait, .cmd [0x04]]

/-- `loongson_spi_read`. -/
def spiRead (offset n : ℕ) : List SpiOp := [.read ([0x0b] ++ addr3 offset ++ [0]) n]

/-- The loop of `loongson_spi_write`, with `n - i` bytes to go. -/
def spiWriteLoop (pos : ℕ) (buf : ℕ → UInt8) : (togo i : ℕ) → List SpiOp
  | 0, _ => []
  | togo + 1, i =>
    .cmd [0x06] :: .cmd ([0x02] ++ addr3 (pos + i) ++ [buf i]) :: .wait ::
      spiWriteLoop pos buf togo (i + 1)

/-- `loongson_spi_write`. -/
def spiWrite (offset : ℕ) (buf : ℕ → UInt8) (n : ℕ) : List SpiOp := spiWriteLoop offset buf n 0

/-- The loop of `loongson_spi_aai_write` up to `bound`. -/
def spiAaiLoop (buf : ℕ → UInt8) (bound : ℕ) : (fuel j : ℕ) → List SpiOp
  | 0, _ => []
  | fuel + 1, j =>
    if j < bound then
      .cmd [0xad, buf j, buf (j + 1)] :: .wait :: spiAaiLoop buf bound fuel (j + 2)
    else []

/-- `(n & 0x1) ? n+1 : n`, as a `size_t`. -/
def aaiBound (n : ℕ) : ℕ := if n % 2 = 1 then (n + 1) % 4294967296 else n

/-- `loongson_spi_aai_write`. -/
def spiAaiWrite (offset : ℕ) (buf : ℕ → UInt8) (n : ℕ) : List SpiOp :=
  [.cmd [0x06], .cmd ([0xad] ++ addr3 offset ++ [buf 0, buf 1]), .wait] ++
    spiAaiLoop buf (aaiBound n) n 2 ++ [.cmd [0x04], .wait]

/-- `spi_program`, without the comparison at the end, of which nothing comes. -/
def spiProgram (base : ℕ → UInt8) (offset len : ℕ) (fast : Bool) : List SpiOp :=
  [.cs true] ++ disableWriteProtection ++
    (if fast then spiAaiWrite offset base len else spiWrite offset base len) ++
    enableWriteProtection ++ spiRead offset len ++ [.cs false]

/-- `fl_program_spi`. -/
def flProgramSpi (pa : ℕ) (pd : ℕ → UInt8) : List SpiOp := spiProgram pd pa 1 true

/-! ## §3 What is programmed -/

variable {c : SpiChip} {ops ops' : List SpiOp} {offset n : ℕ} {buf : ℕ → UInt8}

theorem run_append : c.run (ops ++ ops') = (c.run ops).run ops' := List.foldl_append

theorem run_cons {op : SpiOp} : c.run (op :: ops) = (c.step op).run ops := rfl

theorem addrOf_addr3 (a : ℕ) : addrOf (UInt8.ofNat (a / 65536)) (UInt8.ofNat (a / 256))
    (UInt8.ofNat a) = a % 16777216 := by
  simp only [addrOf, UInt8.toNat_ofNat']
  omega

/-- The chip takes commands. -/
structure SpiChip.Open (c : SpiChip) : Prop where
  status : c.status = 0
  aai : c.aai = none

theorem run_disableWriteProtection (h : c.aai = none) :
    (c.run disableWriteProtection).Open ∧
      (c.run disableWriteProtection).programmed = c.programmed := by
  simp [disableWriteProtection, SpiChip.run, SpiChip.step, SpiChip.cmd, h]
  exact ⟨rfl, rfl⟩

theorem run_enableWriteProtection :
    (c.run enableWriteProtection).programmed = c.programmed ∧
      (c.run enableWriteProtection).status = 0x1c ∧
      (c.run enableWriteProtection).wel = false := by
  simp [enableWriteProtection, SpiChip.run, SpiChip.step, SpiChip.cmd]

/-- What is to be programmed, up to byte `n`. -/
def spiTarget (offset : ℕ) (buf : ℕ → UInt8) (n : ℕ) : List (ℕ × UInt8) :=
  (List.range n).map fun i => ((offset + i) % 16777216, buf i)

theorem spiTarget_succ : spiTarget offset buf (n + 1) =
    spiTarget offset buf n ++ [((offset + n) % 16777216, buf n)] := by
  rw [spiTarget, List.range_succ, List.map_append]
  rfl

/-- A byte. -/
theorem cmd_byte (h : c.Open) (a : ℕ) (b : UInt8) :
    ((c.cmd [0x06]).cmd ([0x02] ++ addr3 a ++ [b])).Open ∧
      ((c.cmd [0x06]).cmd ([0x02] ++ addr3 a ++ [b])).programmed =
        c.programmed ++ [(a % 16777216, b)] := by
  obtain ⟨hstatus, haai⟩ := h
  simp only [SpiChip.cmd, addr3, List.cons_append, List.nil_append, hstatus, addrOf_addr3,
    Bool.true_and, beq_self_eq_true, if_true]
  exact ⟨⟨rfl, haai⟩, trivial⟩

/-- **Byte by byte**: what is to be programmed. -/
theorem run_spiWriteLoop (togo i : ℕ) (h : c.Open) (hp : c.programmed = spiTarget offset buf i) :
    (c.run (spiWriteLoop offset buf togo i)).programmed = spiTarget offset buf (i + togo) := by
  induction togo generalizing c i with
  | zero => exact hp
  | succ togo ih =>
    obtain ⟨hopen, hbyte⟩ := cmd_byte h (offset + i) (buf i)
    rw [spiWriteLoop, run_cons, run_cons, run_cons, Nat.add_comm togo 1, ← Nat.add_assoc]
    apply ih _ hopen
    rw [spiTarget_succ, ← hp]
    exact hbyte

/-- The chip is in the middle of an auto address increment. -/
structure SpiChip.Running (c : SpiChip) (offset : ℕ) (buf : ℕ → UInt8) (n : ℕ) : Prop where
  aai : c.aai = some ((offset + n) % 16777216)
  programmed : c.programmed = spiTarget offset buf n

theorem running_pair (a : ℕ) (ha : a = (offset + n) % 16777216)
    (hp : c.programmed = spiTarget offset buf n) :
    (c.pair a (buf n) (buf (n + 1))).Running offset buf (n + 2) := by
  subst ha
  refine ⟨?_, ?_⟩
  · rw [SpiChip.pair, Nat.mod_add_mod, Nat.add_assoc]
  · change c.programmed ++ [_, (((offset + n) % 16777216 + 1) % 16777216, _)] = _
    rw [hp, spiTarget_succ, spiTarget_succ, Nat.mod_add_mod, List.append_assoc, Nat.add_assoc]
    rfl

/-- The loop goes on in pairs up to its bound. -/
theorem run_spiAaiLoop (fuel j bound : ℕ) (h : c.Running offset buf j)
    (hfuel : bound ≤ j + 2 * fuel) :
    ∃ m, (c.run (spiAaiLoop buf bound fuel j)).Running offset buf m ∧
      m = j + (bound - j + 1) / 2 * 2 := by
  induction fuel generalizing c j with
  | zero => exact ⟨j, h, by omega⟩
  | succ fuel ih =>
    rw [spiAaiLoop]
    split
    · rename_i hj
      rw [run_cons, run_cons]
      have hstep : (c.step (.cmd [0xad, buf j, buf (j + 1)])).Running offset buf (j + 2) := by
        simp only [SpiChip.step, SpiChip.cmd, h.aai]
        exact running_pair _ rfl h.programmed
      obtain ⟨m, hm, heq⟩ := ih _ hstep (by omega)
      exact ⟨m, hm, by omega⟩
    · exact ⟨j, h, by omega⟩

/-- How many bytes the fast way programs. -/
def aaiCount (n : ℕ) : ℕ := 2 + (aaiBound n - 2 + 1) / 2 * 2

/-- **In pairs**: the bytes up to an even number. -/
theorem run_spiAaiWrite (h : c.Open) (hp : c.programmed = []) :
    (c.run (spiAaiWrite offset buf n)).programmed = spiTarget offset buf (aaiCount n) := by
  have hbound : aaiBound n ≤ n + 1 := by
    unfold aaiBound
    split
    · exact Nat.mod_le _ _
    · exact Nat.le_succ n
  have hfirst : (c.run [.cmd [0x06], .cmd ([0xad] ++ addr3 offset ++ [buf 0, buf 1]),
      .wait]).Running offset buf 2 := by
    simp only [SpiChip.run, List.foldl_cons, List.foldl_nil, SpiChip.step, SpiChip.cmd, addr3,
      List.cons_append, List.nil_append, h.status, addrOf_addr3]
    exact running_pair _ rfl hp
  obtain ⟨m, hm, heq⟩ := run_spiAaiLoop n 2 (aaiBound n) hfirst (by omega)
  rw [spiAaiWrite, run_append, run_append, aaiCount, ← heq]
  exact hm.programmed

end Pmon.Flash
