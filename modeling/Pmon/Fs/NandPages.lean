import Pmon.Fs.NandRuns

/-!
# NAND flash, byte by byte

`get_addr_jump_badblocks` and the pairs `nandwrite_set_badblock`, `nandread_check_badblock` and
`nandwrite_set_badblock_ecc`, `nandread_check_badblock_ecc` of `Targets/LS2K/dev/nand_opt.c`, from
any address and with the memory that a read stores to.  The two pairs have the same loops; they
differ in how many bytes go into a block, how they are programmed, and where a spare area is read.

`block_erase` fails exactly on the bad blocks; programming only clears bits.  A transfer is as many
words as the DMA is told, `count / 4`, and goes on from page to page, with the first address behind
the last one.  The source of a write is no part of `SET_BADBLOCK_AREA`.

## Key results

- `plain_follows`, `ecc_follows`: how the two pairs go from block to block.
- `plain_keeps`, `ecc_keeps`: the calls whose data stays in the block it is meant for.
-/

namespace Pmon.Fs.NandPages

open Pmon.Lib

/-! ## §1 The chip and the memory -/

/-- The bytes of the pages by their addresses, and those of the spare area of each block. -/
@[ext] structure NandChip where
  data : ℕ → UInt8
  spare : ℕ → ℕ → UInt8

/-- The number of addresses. -/
def nandAddrs : ℕ := nandBlockSize * nandBlocks

/-- `flag[0] != 0xff`. -/
def NandChip.marked (chip : NandChip) (block : ℕ) : Bool := chip.spare block 0 != 0xff

/-- `block_erase` of a good block, its spare area too. -/
def NandChip.erase (chip : NandChip) (block : ℕ) : NandChip where
  data a := if a / nandBlockSize = block then 0xff else chip.data a
  spare := Function.update chip.spare block fun _ => 0xff

/-- Bits are cleared from `addr` on. -/
def NandChip.program (chip : NandChip) (addr : ℕ) (bytes : List UInt8) : NandChip where
  data a :=
    if a < nandAddrs then chip.data a &&& bytes.getD (gap nandAddrs addr a) 0xff else chip.data a
  spare := chip.spare

def NandChip.fetch (chip : NandChip) (addr count : ℕ) : List UInt8 :=
  (List.range count).map fun i => chip.data ((addr + i) % nandAddrs)

/-- `SET_BADBLOCK_AREA`: a zero, and fifteen times `0xff`. -/
def setBadblockArea : List UInt8 := 0 :: List.replicate 15 0xff

/-- `nandwrite_spare`. -/
def NandChip.nandwriteSpare (chip : NandChip) (block : ℕ) (bytes : List UInt8) : NandChip :=
  { chip with
    spare := Function.update chip.spare block fun i => chip.spare block i &&& bytes.getD i 0xff }

/-- The memory, and where it has been stored to: addresses and lengths. -/
structure Buffer where
  mem : ℕ → UInt8
  stores : List (ℕ × ℕ)

def Buffer.store (buf : Buffer) (addr : ℕ) (bytes : List UInt8) : Buffer where
  mem a := if addr ≤ a ∧ a < addr + bytes.length then bytes.getD (a - addr) 0 else buf.mem a
  stores := (addr, bytes.length) :: buf.stores

/-- `nandread_spare` of 16 bytes. -/
def nandreadSpare (chip : NandChip) (dist block : ℕ) (buf : Buffer) : Buffer :=
  buf.store dist ((List.range 16).map (chip.spare block))

/-- `get_addr_jump_badblocks`, with the memory at `badblock_flag`. -/
def addrJumpBadblocks (chip : NandChip) (addr flag : ℕ) (buf : Buffer) : ℕ × Buffer :=
  let (count, buf) := (List.range (addr / nandBlockSize)).foldl (fun (count, buf) block =>
    let buf := nandreadSpare chip flag block buf
    (if buf.mem flag ≠ 0xff then count + 1 else count, buf)) (0, buf)
  ((addr + count * nandBlockSize) % nandAddrs, buf)

/-! ## §2 The two loops -/

/-- What differs between the two pairs, for an address, a number of bytes and a place in memory. -/
structure Variant where
  /-- `write_count` and `read_count`, before what is left is looked at. -/
  room : ℕ → ℕ
  /-- `cur_nand_addr` behind so many bytes. -/
  advance : ℕ → ℕ → ℕ
  write : NandChip → List UInt8 → ℕ → ℕ → NandChip
  read : NandChip → ℕ → ℕ → List UInt8
  /-- Where the spare area is read to. -/
  spareAt : ℕ → ℕ

/-- `cur_nand_addr += BLOCK_SIZE`. -/
def addBlock (cur : ℕ) : ℕ := (cur + nandBlockSize) % nandAddrs

/-- The loop of the writes; `fuel` bounds its turns. -/
def writeLoop (v : Variant) (bad : ℕ → Bool) :
    (fuel : ℕ) → (cur : ℕ) → List UInt8 → NandChip → Option NandChip
  | 0, _, _, _ => none
  | fuel + 1, cur, src, chip =>
    let block := cur / nandBlockSize
    if bad block then
      -- `block_erase` has failed five times
      writeLoop v bad fuel (addBlock cur) src (chip.nandwriteSpare block setBadblockArea)
    else
      let count := min (v.room cur) src.length
      let chip := v.write (chip.erase block) src cur count
      if src.length - count = 0 then some chip
      else writeLoop v bad fuel (v.advance cur count) (src.drop count) chip

/-- The loop of the reads. -/
def readLoop (v : Variant) (chip : NandChip) :
    (fuel : ℕ) → (cur dist left : ℕ) → Buffer → Option Buffer
  | 0, _, _, _, _ => none
  | fuel + 1, cur, dist, left, buf =>
    let count := min (v.room cur) left
    let buf := nandreadSpare chip (v.spareAt dist) (cur / nandBlockSize) buf
    if buf.mem (v.spareAt dist) ≠ 0xff then readLoop v chip fuel (addBlock cur) dist left buf
    else
      let buf := buf.store dist (v.read chip cur count)
      if left - count = 0 then some buf
      else readLoop v chip fuel (v.advance cur count) (dist + count) (left - count) buf

/-- Where `SET_BADBLOCK_AREA` is. -/
def setBadblockAddr : ℕ := 0x85100000

/-- A write, `none` when it does not return. -/
def writeCall (v : Variant) (bad : ℕ → Bool) (chip : NandChip) (src : List UInt8) (addr : ℕ)
    (buf : Buffer) : Option NandChip :=
  writeLoop v bad (nandFuel src.length) (addrJumpBadblocks chip addr setBadblockAddr buf).1 src chip

/-- A read, `none` when it does not return. -/
def readCall (v : Variant) (chip : NandChip) (dist addr count : ℕ) (buf : Buffer) :
    Option Buffer :=
  let (cur, buf) := addrJumpBadblocks chip addr dist buf
  readLoop v chip (nandFuel count) cur dist count buf

/-! ### The plain pair -/

/-- `nandwrite`: the DMA gets `count / 4` words. -/
def nandwrite (chip : NandChip) (src : List UInt8) (addr count : ℕ) : NandChip :=
  chip.program addr (src.take (count / 4 * 4))

/-- `nandread`. -/
def nandread (chip : NandChip) (addr count : ℕ) : List UInt8 := chip.fetch addr (count / 4 * 4)

/-- The difference in `cur_nand_addr - cur_nand_addr & (~(BLOCK_SIZE - 1))` is taken first. -/
def blockOffset (cur : ℕ) : ℕ := (cur - cur) / nandBlockSize * nandBlockSize

def plain : Variant where
  room cur := nandBlockSize - blockOffset cur
  advance cur count := (cur + count) % nandAddrs
  write := nandwrite
  read := nandread
  spareAt dist := dist

/-- `nandwrite_set_badblock`. -/
def nandwriteSetBadblock : (ℕ → Bool) → NandChip → List UInt8 → ℕ → Buffer → Option NandChip :=
  writeCall plain

/-- `nandread_check_badblock`. -/
def nandreadCheckBadblock : NandChip → (dist addr count : ℕ) → Buffer → Option Buffer :=
  readCall plain

/-! ### The pair with ECC -/

/-- Where a transfer from `addr` on has its code word number `k`: ten to a page, of 204 bytes. -/
def codePlace (addr k : ℕ) : ℕ :=
  let slot := addr % 2048 / 204 + k
  addr / 2048 * 2048 + slot / 10 * 2048 + slot % 10 * 204

/-- `nandwrite_ecc`: each 188 bytes are a code word. -/
def nandwriteEcc (encode : List UInt8 → List UInt8) (chip : NandChip) (src : List UInt8)
    (addr count : ℕ) : NandChip :=
  (List.range (count / 188)).foldl (fun chip k =>
    chip.program (codePlace addr k) (encode ((src.drop (188 * k)).take 188))) chip

/-- `nandread_ecc`. -/
def nandreadEcc (decode : List UInt8 → List UInt8) (chip : NandChip) (addr count : ℕ) :
    List UInt8 :=
  (List.range (count / 188)).flatMap fun k => decode (chip.fetch (codePlace addr k) 204)

/-- `BLOCK_SIZE_ECC`. -/
def nandBlockSizeEcc : ℕ := 204 * 10 * 64

def eccRoom (cur : ℕ) : ℕ :=
  let offset := cur % nandBlockSize
  (nandBlockSizeEcc - offset / 2048 * 204 * 10 - offset % 2048) / 204 * 188

def eccAdvance (cur count : ℕ) : ℕ :=
  let offset := cur % nandBlockSize
  let part := count % (188 * 10) / 188 * 204
  let cur := cur + (count / (188 * 10) * 2048 + part)
  (if 204 * 10 ≤ offset % 2048 + part then cur + 8 else cur) % nandAddrs

def ecc (encode decode : List UInt8 → List UInt8) : Variant where
  room := eccRoom
  advance := eccAdvance
  write := nandwriteEcc encode
  read := nandreadEcc decode
  spareAt dist := dist / 16 * 16 + 16

/-- `nandwrite_set_badblock_ecc`. -/
def nandwriteSetBadblockEcc (encode decode : List UInt8 → List UInt8) :
    (ℕ → Bool) → NandChip → List UInt8 → ℕ → Buffer → Option NandChip :=
  writeCall (ecc encode decode)

/-- `nandread_check_badblock_ecc`. -/
def nandreadCheckBadblockEcc (encode decode : List UInt8 → List UInt8) :
    NandChip → (dist addr count : ℕ) → Buffer → Option Buffer :=
  readCall (ecc encode decode)

/-! ## §3 How a pair goes from block to block -/

/-- The offsets in a block that a pair comes to, the bytes that fit behind one, and the next one. -/
structure Course where
  offset : ℕ → Prop
  unit : ℕ
  room : ℕ → ℕ
  next : ℕ → ℕ
  /-- So many plain bytes from the block's first one on would take as many blocks. -/
  span : ℕ → ℕ → ℕ

/-- What the loops rely on. -/
structure Variant.Follows (v : Variant) (c : Course) : Prop where
  offset_lt : ∀ {o}, c.offset o → o < nandBlockSize
  offset_next : ∀ {o}, c.offset o → c.offset (c.next o)
  unit_dvd : ∀ {o}, c.offset o → c.unit ∣ c.room o
  room_pos : ∀ {o}, c.offset o → 0 < c.room o
  room_eq : ∀ {o}, c.offset o → ∀ b, v.room (b * nandBlockSize + o) = c.room o
  advance_eq : ∀ {o}, c.offset o → ∀ b < nandBlocks,
    v.advance (b * nandBlockSize + o) (c.room o) = (b + 1) % nandBlocks * nandBlockSize + c.next o
  span_le : ∀ {o count}, c.offset o → count ≤ c.room o → c.span o count ≤ nandBlockSize
  span_gt : ∀ {o count}, c.offset o → c.room o < count → nandBlockSize < c.span o count
  span_rest : ∀ {o count}, c.offset o → c.room o < count →
    c.span (c.next o) (count - c.room o) = c.span o count - nandBlockSize
  span_fuel : ∀ {o}, c.offset o → ∀ count, chunkCount (c.span o count) ≤ count + 1
  write_spare : ∀ chip src addr n, (v.write chip src addr n).spare = chip.spare
  write_cell : ∀ {chip chip' : NandChip} {a}, chip.data a = chip'.data a → ∀ src addr n,
    (v.write chip src addr n).data a = (v.write chip' src addr n).data a
  /-- The first byte is only in its own block. -/
  write_first : ∀ {o b a n} {src : List UInt8}, c.offset o → b < nandBlocks → c.unit ∣ n →
    n ≤ src.length + 1 → a / nandBlockSize ≠ b → ∀ chip x y,
    (v.write chip (x :: src) (b * nandBlockSize + o) n).data a =
      (v.write chip (y :: src) (b * nandBlockSize + o) n).data a
  read_length : ∀ {n}, c.unit ∣ n → ∀ chip addr, (v.read chip addr n).length = n
  read_first : ∀ {o b n}, c.offset o → b < nandBlocks → c.unit ∣ n → 0 < n →
    ∀ chip chip' : NandChip, (∀ a, a / nandBlockSize = b → chip.data a = chip'.data a) →
    (v.read chip (b * nandBlockSize + o) n).head? = (v.read chip' (b * nandBlockSize + o) n).head?
  spareAt_ge : ∀ dist, dist ≤ v.spareAt dist

/-- The calls, by their offset and what is left, whose data stays in the block it is meant for, and
    whose reads of spare areas stay in the memory that is left. -/
structure Variant.Keeps (v : Variant) (c : Course) (K : ℕ → ℕ → Prop) : Prop where
  offset : ∀ {o count}, K o count → c.offset o
  unit_dvd : ∀ {o count}, K o count → c.unit ∣ count
  rest : ∀ {o count}, K o count → c.room o < count → K (c.next o) (count - c.room o)
  outside : ∀ {o b a} {src : List UInt8}, K o src.length → b < nandBlocks →
    a / nandBlockSize ≠ b → ∀ chip,
    (v.write chip src (b * nandBlockSize + o) (min (c.room o) src.length)).data a = chip.data a
  back : ∀ {o b} {src : List UInt8}, K o src.length → b < nandBlocks → ∀ chip chip' : NandChip,
    (∀ a, a / nandBlockSize = b → chip'.data a =
      (v.write (chip.erase b) src (b * nandBlockSize + o) (min (c.room o) src.length)).data a) →
    v.read chip' (b * nandBlockSize + o) (min (c.room o) src.length) =
      src.take (min (c.room o) src.length)
  spareAt_le : ∀ {o count}, K o count → ∀ dist, v.spareAt dist + 16 ≤ dist + count

variable {chip chip' : NandChip} {src bytes : List UInt8} {a b o n addr count k m : ℕ}

/-- The way from one address to another. -/
theorem gap_addrs (haddr : addr < nandAddrs) (ha : a < nandAddrs) :
    gap nandAddrs addr a = if addr ≤ a then a - addr else a + nandAddrs - addr := by
  unfold gap
  rw [Nat.mod_eq_of_lt haddr]
  split
  · rw [show a + (nandAddrs - addr) = a - addr + nandAddrs by omega, Nat.add_mod_right]
    apply Nat.mod_eq_of_lt
    omega
  · rw [show a + (nandAddrs - addr) = a + nandAddrs - addr by omega]
    apply Nat.mod_eq_of_lt
    omega

theorem program_data (ha : a < nandAddrs) : (chip.program addr bytes).data a =
    chip.data a &&& bytes.getD (gap nandAddrs addr a) 0xff := if_pos ha

theorem and_ones (x : UInt8) : x &&& 0xff = x := by
  rw [← UInt8.toNat_inj]
  have h := Nat.and_two_pow_sub_one_of_lt_two_pow x.toNat_lt
  simpa using h

theorem ones_and (x : UInt8) : 0xff &&& x = x := by
  rw [UInt8.and_comm, and_ones]

/-- What lies in front of the bytes or behind them stays. -/
theorem program_outside (haddr : addr + bytes.length ≤ nandAddrs) (hpos : addr < nandAddrs)
    (hout : a < addr ∨ addr + bytes.length ≤ a) :
    (chip.program addr bytes).data a = chip.data a := by
  by_cases ha : a < nandAddrs
  · rw [program_data ha, gap_addrs hpos ha, List.getD_eq_default, and_ones]
    split
    · omega
    · omega
  · exact if_neg ha

theorem program_inside {i : ℕ} (hi : i < bytes.length) (haddr : addr + bytes.length ≤ nandAddrs) :
    (chip.program addr bytes).data (addr + i) = chip.data (addr + i) &&& bytes.getD i 0xff := by
  rw [program_data (by omega), gap_addrs (by omega) (by omega), if_pos (by omega),
    Nat.add_sub_cancel_left]

/-- Programming is done byte by byte. -/
theorem program_cell (h : chip.data a = chip'.data a) (addr : ℕ) (bytes : List UInt8) :
    (chip.program addr bytes).data a = (chip'.program addr bytes).data a := by
  unfold NandChip.program
  dsimp only
  rw [h]

theorem length_fetch (chip : NandChip) (addr count : ℕ) :
    (chip.fetch addr count).length = count := by
  rw [NandChip.fetch, List.length_map, List.length_range]

theorem nandAddrs_eq : nandAddrs = nandBlocks * nandBlockSize := Nat.mul_comm _ _

/-- A place in a block. -/
theorem place_lt (hb : b < nandBlocks) (ho : o < nandBlockSize) :
    b * nandBlockSize + o < nandAddrs := by
  unfold nandAddrs nandBlocks nandBlockSize at *
  omega

theorem place_div (ho : o < nandBlockSize) : (b * nandBlockSize + o) / nandBlockSize = b := by
  unfold nandBlockSize at *
  omega

theorem erase_data (ha : a / nandBlockSize = b) : (chip.erase b).data a = 0xff := if_pos ha

/-- Erased bytes take what is programmed. -/
theorem program_erased {i : ℕ} (hi : i < bytes.length) (haddr : addr + bytes.length ≤ nandAddrs)
    (hblock : (addr + i) / nandBlockSize = b) :
    ((chip.erase b).program addr bytes).data (addr + i) = bytes.getD i 0xff := by
  rw [program_inside hi haddr, erase_data hblock, ones_and]

/-! ### The plain pair -/

/-- Every block takes as many bytes, from the same offset on. -/
def plainCourse : Course where
  offset o := o < nandBlockSize
  unit := 4
  room _ := nandBlockSize
  next o := o
  span _ count := count

theorem plain_follows : plain.Follows plainCourse where
  offset_lt ho := ho
  offset_next ho := ho
  unit_dvd _ := (by decide : 4 ∣ nandBlockSize)
  room_pos _ := (by decide : 0 < nandBlockSize)
  room_eq _ b := by
    change nandBlockSize - blockOffset _ = nandBlockSize
    rw [blockOffset, Nat.sub_self, Nat.zero_div, Nat.zero_mul, Nat.sub_zero]
  advance_eq {o} ho b _ := by
    change (b * nandBlockSize + o + nandBlockSize) % nandAddrs = _
    change o < nandBlockSize at ho
    dsimp only [plainCourse]
    unfold nandAddrs nandBlocks nandBlockSize at *
    omega
  span_le _ hle := hle
  span_gt _ hlt := hlt
  span_rest _ _ := rfl
  span_fuel _ count := by
    unfold chunkCount nandBlockSize plainCourse
    dsimp only
    omega
  write_spare _ _ _ _ := rfl
  write_cell h src addr n := program_cell h addr _
  write_first {o b a n src} ho hb _ _ hne chip x y := by
    change (chip.program _ _).data a = (chip.program _ _).data a
    by_cases ha : a < nandAddrs
    · have hlt := place_lt hb ho
      have hgap : gap nandAddrs (b * nandBlockSize + o) a ≠ 0 := by
        rw [gap_addrs hlt ha]
        intro hzero
        apply hne
        have heq : a = b * nandBlockSize + o := by
          split at hzero
          · omega
          · omega
        rw [heq, place_div ho]
      obtain ⟨i, hi⟩ := Nat.exists_eq_succ_of_ne_zero hgap
      rw [program_data ha, program_data ha, hi]
      cases n / 4 * 4 with
      | zero => rfl
      | succ m => rfl
    · exact (if_neg ha).trans (if_neg ha).symm
  read_length {n} hunit chip addr := by
    change (chip.fetch addr (n / 4 * 4)).length = n
    rw [length_fetch]
    exact Nat.div_mul_cancel hunit
  read_first {o b n} ho hb hunit hpos chip chip' hagree := by
    change (chip.fetch _ (n / 4 * 4)).head? = (chip'.fetch _ (n / 4 * 4)).head?
    obtain ⟨m, hm⟩ := Nat.exists_eq_succ_of_ne_zero (Nat.pos_iff_ne_zero.mp hpos)
    rw [Nat.div_mul_cancel (show 4 ∣ n from hunit), hm]
    simp only [NandChip.fetch, List.range_succ_eq_map, List.map_cons, List.head?_cons, Nat.add_zero]
    rw [Nat.mod_eq_of_lt (place_lt hb ho), hagree _ (place_div ho)]
  spareAt_ge dist := Nat.le_refl dist

/-- From the begin of a block, or in one block; in words; with 16 bytes at least in each block. -/
def PlainKept (o count : ℕ) : Prop :=
  o < nandBlockSize ∧ 4 ∣ count ∧ (o = 0 ∨ o + count ≤ nandBlockSize) ∧
    16 ≤ (count - 1) % nandBlockSize + 1

theorem plain_keeps : plain.Keeps plainCourse PlainKept where
  offset h := h.1
  unit_dvd h := h.2.1
  rest {o count} h hlt := by
    obtain ⟨ho, hunit, hin, hlast⟩ := h
    dsimp only [plainCourse] at *
    unfold PlainKept nandBlockSize at *
    omega
  outside {o b a src} h hb hne chip := by
    obtain ⟨ho, -, hin, -⟩ := h
    change (chip.program _ _).data a = _
    change o = 0 ∨ _ at hin
    have hlen : (src.take (min nandBlockSize src.length / 4 * 4)).length ≤ nandBlockSize - o := by
      rw [List.length_take]
      omega
    change ((chip.program (b * nandBlockSize + o)
      (src.take (min nandBlockSize src.length / 4 * 4))).data a = _)
    generalize src.take _ = bytes at hlen ⊢
    apply program_outside
    · unfold nandAddrs nandBlocks nandBlockSize at *
      omega
    · exact place_lt hb ho
    · unfold nandBlockSize at *
      omega
  back {o b src} h hb chip chip' hagree := by
    obtain ⟨ho, hunit, hin, -⟩ := h
    change chip'.fetch _ (min nandBlockSize src.length / 4 * 4) =
      src.take (min nandBlockSize src.length)
    have hn : min nandBlockSize src.length / 4 * 4 = min nandBlockSize src.length := by
      unfold nandBlockSize at *
      omega
    have hroom : min nandBlockSize src.length ≤ nandBlockSize - o := by omega
    have hle : min nandBlockSize src.length ≤ src.length := Nat.min_le_right _ _
    rw [hn]
    change ∀ a, a / nandBlockSize = b → chip'.data a = ((chip.erase b).program
      (b * nandBlockSize + o) (src.take (min nandBlockSize src.length / 4 * 4))).data a at hagree
    rw [hn] at hagree
    generalize min nandBlockSize src.length = n at hroom hle hagree ⊢
    have hlen : (src.take n).length = n := by rw [List.length_take, Nat.min_eq_left hle]
    apply List.ext_getElem
    · rw [length_fetch, hlen]
    · intro i hi hi'
      rw [hlen] at hi'
      have hblock : (b * nandBlockSize + o + i) / nandBlockSize = b := by
        unfold nandBlockSize at *
        omega
      have hend : b * nandBlockSize + o + (src.take n).length ≤ nandAddrs := by
        rw [hlen]
        unfold nandAddrs nandBlocks nandBlockSize at *
        omega
      simp only [NandChip.fetch, List.getElem_map, List.getElem_range]
      rw [Nat.mod_eq_of_lt (by omega), hagree _ hblock, program_erased (by omega) hend hblock]
      exact List.getD_eq_getElem _ _ _
  spareAt_le {o count} h dist := by
    change dist + 16 ≤ dist + count
    obtain ⟨-, -, -, hlast⟩ := h
    have hmod := Nat.mod_le (count - 1) nandBlockSize
    omega

/-! ### The pair with ECC -/

/-- The code of the controller: 188 bytes in 204. -/
structure Codes (encode decode : List UInt8 → List UInt8) : Prop where
  encode_length : ∀ word, word.length = 188 → (encode word).length = 204
  decode_length : ∀ code, code.length = 204 → (decode code).length = 188
  decode_encode : ∀ word, word.length = 188 → decode (encode word) = word

/-- From the begin of a page, behind the first block of the next one. -/
def eccCourse : Course where
  offset o := 2048 ∣ o ∧ o < nandBlockSize
  unit := 188
  room o := (64 - o / 2048) * 1880
  next _ := 0
  span o count := o + (count + 1879) / 1880 * 2048

variable {encode decode : List UInt8 → List UInt8}

/-- The bytes of a code word. -/
def wordAt (src : List UInt8) (k : ℕ) : List UInt8 := (src.drop (188 * k)).take 188

theorem length_wordAt (src : List UInt8) (k : ℕ) (h : 188 * (k + 1) ≤ src.length) :
    (wordAt src k).length = 188 := by
  rw [wordAt, List.length_take, List.length_drop]
  omega

theorem nandwriteEcc_eq (encode : List UInt8 → List UInt8) (chip : NandChip) (src : List UInt8)
    (addr count : ℕ) : nandwriteEcc encode chip src addr count =
      (List.range (count / 188)).foldl (fun chip k =>
        chip.program (codePlace addr k) (encode (wordAt src k))) chip := rfl

/-- Code words from the begin of a page on. -/
theorem codePlace_page (ho : 2048 ∣ o) (k : ℕ) : codePlace (b * nandBlockSize + o) k =
    b * nandBlockSize + o + k / 10 * 2048 + k % 10 * 204 := by
  unfold codePlace nandBlockSize
  dsimp only
  omega

/-- The code words that fit into a block are in it. -/
theorem codePlace_in (ho : 2048 ∣ o) (hk : k < (64 - o / 2048) * 10) {i : ℕ} (hi : i < 204) :
    (codePlace (b * nandBlockSize + o) k + i) / nandBlockSize = b := by
  rw [codePlace_page ho]
  unfold nandBlockSize
  omega

theorem codePlace_end (ho : 2048 ∣ o) (hk : k < (64 - o / 2048) * 10) (hb : b < nandBlocks) :
    codePlace (b * nandBlockSize + o) k + 204 ≤ nandAddrs := by
  rw [codePlace_page ho]
  unfold nandAddrs nandBlocks nandBlockSize at *
  omega

/-- There is one at least. -/
theorem words_fit (ho : o < nandBlockSize) : 0 < (64 - o / 2048) * 10 := by
  unfold nandBlockSize at ho
  omega

/-- They do not overlap. -/
theorem codePlace_apart (ho : 2048 ∣ o) {j : ℕ} (hlt : j < k) :
    codePlace (b * nandBlockSize + o) j + 204 ≤ codePlace (b * nandBlockSize + o) k := by
  rw [codePlace_page ho, codePlace_page ho]
  omega

/-- What a transfer of code words has done, outside the block and in it. -/
theorem words_outside (hcodes : ∀ word : List UInt8, word.length = 188 → (encode word).length = 204)
    (ho : 2048 ∣ o) (hb : b < nandBlocks) (hm : m ≤ (64 - o / 2048) * 10)
    (hsrc : 188 * m ≤ src.length) (hne : a / nandBlockSize ≠ b) :
    ((List.range m).foldl (fun chip k =>
      chip.program (codePlace (b * nandBlockSize + o) k) (encode (wordAt src k))) chip).data a =
      chip.data a := by
  induction m with
  | zero => rfl
  | succ m ih =>
    rw [List.range_succ, List.foldl_append, List.foldl_cons, List.foldl_nil]
    have hlen := hcodes _ (length_wordAt src m (by omega))
    have hend := codePlace_end ho (show m < (64 - o / 2048) * 10 by omega) hb
    rw [program_outside (by omega) (by omega), ih (by omega) (by omega)]
    by_contra hin
    apply hne
    have hplace := codePlace_in (b := b) ho (show m < (64 - o / 2048) * 10 by omega)
      (show a - codePlace (b * nandBlockSize + o) m < 204 by omega)
    rwa [Nat.add_sub_cancel' (by omega)] at hplace

theorem words_front (hcodes : ∀ word : List UInt8, word.length = 188 → (encode word).length = 204)
    (ho : 2048 ∣ o) (hb : b < nandBlocks) (hm : m ≤ (64 - o / 2048) * 10)
    (hsrc : 188 * m ≤ src.length) (hle : codePlace (b * nandBlockSize + o) m ≤ a) :
    ((List.range m).foldl (fun chip k =>
      chip.program (codePlace (b * nandBlockSize + o) k) (encode (wordAt src k))) chip).data a =
      chip.data a := by
  induction m with
  | zero => rfl
  | succ m ih =>
    rw [List.range_succ, List.foldl_append, List.foldl_cons, List.foldl_nil]
    have hlen := hcodes _ (length_wordAt src m (by omega))
    have hend := codePlace_end ho (show m < (64 - o / 2048) * 10 by omega) hb
    have hapart := codePlace_apart (b := b) ho (show m < m + 1 by omega)
    rw [program_outside (by omega) (by omega) (by omega), ih (by omega) (by omega) (by omega)]

theorem words_inside (hcodes : ∀ word : List UInt8, word.length = 188 → (encode word).length = 204)
    (ho : 2048 ∣ o) (hb : b < nandBlocks) (hm : m ≤ (64 - o / 2048) * 10)
    (hsrc : 188 * m ≤ src.length) (hk : k < m) {i : ℕ} (hi : i < 204) :
    ((List.range m).foldl (fun chip k =>
      chip.program (codePlace (b * nandBlockSize + o) k) (encode (wordAt src k)))
        (chip.erase b)).data (codePlace (b * nandBlockSize + o) k + i) =
      (encode (wordAt src k)).getD i 0xff := by
  induction m with
  | zero => omega
  | succ m ih =>
    rw [List.range_succ, List.foldl_append, List.foldl_cons, List.foldl_nil]
    have hlen := hcodes _ (length_wordAt src m (by omega))
    have hend := codePlace_end ho (show m < (64 - o / 2048) * 10 by omega) hb
    rcases Nat.lt_or_eq_of_le (Nat.le_of_lt_succ hk) with hlt | rfl
    · have hapart := codePlace_apart (b := b) ho hlt
      rw [program_outside (by omega) (by omega) (by omega), ih (by omega) (by omega) hlt]
    · rw [program_inside (by omega) (by omega),
        words_front hcodes ho hb (by omega) (by omega) (Nat.le_add_right _ _),
        erase_data (codePlace_in ho (by omega) hi), ones_and]

/-- The words together. -/
theorem flatMap_wordAt (h : 188 * m ≤ src.length) :
    (List.range m).flatMap (wordAt src) = src.take (188 * m) := by
  induction m with
  | zero => rfl
  | succ m ih =>
    rw [List.range_succ, List.flatMap_append, ih (by omega), Nat.mul_succ, List.take_add]
    simp [wordAt]

theorem fetch_congr (h : ∀ i < count, chip.data ((addr + i) % nandAddrs) =
    chip'.data ((addr + i) % nandAddrs)) : chip.fetch addr count = chip'.fetch addr count := by
  unfold NandChip.fetch
  apply List.map_congr_left
  intro i hi
  exact h i (List.mem_range.mp hi)

theorem ecc_follows (h : Codes encode decode) : (ecc encode decode).Follows eccCourse where
  offset_lt ho := ho.2
  offset_next _ := ⟨Nat.dvd_zero _, (by decide : 0 < nandBlockSize)⟩
  unit_dvd _ := Nat.dvd_mul_left_of_dvd (by decide : 188 ∣ 1880) _
  room_pos {o} ho := by
    obtain ⟨-, ho⟩ := ho
    dsimp only [eccCourse]
    unfold nandBlockSize at ho
    omega
  room_eq {o} ho b := by
    obtain ⟨hpage, ho⟩ := ho
    change eccRoom _ = (64 - o / 2048) * 1880
    unfold eccRoom nandBlockSizeEcc nandBlockSize at *
    dsimp only
    omega
  advance_eq {o} ho b hb := by
    obtain ⟨hpage, ho⟩ := ho
    change eccAdvance _ ((64 - o / 2048) * 1880) = (b + 1) % nandBlocks * nandBlockSize + 0
    -- whole pages, so that nothing is left of the last one
    have hpart : (64 - o / 2048) * 1880 % (188 * 10) / 188 * 204 = 0 := by omega
    have hpages : (64 - o / 2048) * 1880 / (188 * 10) * 2048 = nandBlockSize - o := by
      unfold nandBlockSize at *
      omega
    unfold eccAdvance
    dsimp only
    rw [hpart, hpages]
    unfold nandAddrs nandBlocks nandBlockSize at *
    rw [if_neg (by omega)]
    omega
  span_le {o count} ho hle := by
    obtain ⟨hpage, ho⟩ := ho
    dsimp only [eccCourse] at *
    unfold nandBlockSize at *
    omega
  span_gt {o count} ho hlt := by
    obtain ⟨hpage, ho⟩ := ho
    dsimp only [eccCourse] at *
    unfold nandBlockSize at *
    omega
  span_rest {o count} ho hlt := by
    obtain ⟨hpage, ho⟩ := ho
    dsimp only [eccCourse] at *
    unfold nandBlockSize at *
    omega
  span_fuel {o} ho count := by
    obtain ⟨hpage, ho⟩ := ho
    dsimp only [eccCourse]
    unfold chunkCount nandBlockSize at *
    omega
  write_spare chip src addr n := by
    change ((List.range (n / 188)).foldl _ chip).spare = chip.spare
    induction List.range (n / 188) generalizing chip with
    | nil => rfl
    | cons k ks ih => exact ih _
  write_cell {chip chip' a} hcell src addr n := by
    change ((List.range (n / 188)).foldl _ chip).data a =
      ((List.range (n / 188)).foldl _ chip').data a
    induction List.range (n / 188) generalizing chip chip' with
    | nil => exact hcell
    | cons k ks ih => exact ih (program_cell hcell _ _)
  write_first {o b a n src} ho hb hunit hle hne chip x y := by
    change (nandwriteEcc encode chip _ _ n).data a = (nandwriteEcc encode chip _ _ n).data a
    obtain ⟨m, rfl⟩ : 188 ∣ n := hunit
    rw [nandwriteEcc_eq, nandwriteEcc_eq, Nat.mul_div_cancel_left m (by decide : 0 < 188)]
    induction m with
    | zero => rfl
    | succ m ih =>
      have hlen : ∀ z, (wordAt (z :: src) m).length = 188 := by
        intro z
        apply length_wordAt
        rw [List.length_cons]
        omega
      rw [List.range_succ, List.foldl_append, List.foldl_append]
      simp only [List.foldl_cons, List.foldl_nil]
      cases m with
      | zero =>
        -- the first code word, which is in the block
        have hcode := fun z => h.encode_length _ (hlen z)
        have hroom := words_fit ho.2
        have hplace := codePlace_in (b := b) (i := a - (b * nandBlockSize + o)) ho.1 hroom
        have hend := codePlace_end ho.1 hroom hb
        have hzero : codePlace (b * nandBlockSize + o) 0 = b * nandBlockSize + o := by
          rw [codePlace_page ho.1]
          omega
        rw [hzero] at hplace hend ⊢
        have hout : a < b * nandBlockSize + o ∨ b * nandBlockSize + o + 204 ≤ a := by
          by_contra hin
          apply hne
          have hin' := hplace (by omega)
          rwa [Nat.add_sub_cancel' (by omega)] at hin'
        rw [program_outside (by rw [hcode]; exact hend) (by omega) (by rw [hcode]; exact hout),
          program_outside (by rw [hcode]; exact hend) (by omega) (by rw [hcode]; exact hout)]
        rfl
      | succ m => exact program_cell (ih (by omega)) _ _
  read_length {n} hunit chip addr := by
    obtain ⟨m, rfl⟩ : 188 ∣ n := hunit
    change (nandreadEcc decode chip addr (188 * m)).length = 188 * m
    rw [nandreadEcc, Nat.mul_div_cancel_left m (by decide : 0 < 188), List.length_flatMap]
    simp only [h.decode_length _ (length_fetch _ _ _)]
    simp [Nat.mul_comm]
  read_first {o b n} ho hb hunit hpos chip chip' hagree := by
    obtain ⟨m, rfl⟩ : 188 ∣ n := hunit
    obtain ⟨m, rfl⟩ := Nat.exists_eq_succ_of_ne_zero (show m ≠ 0 by omega)
    change (nandreadEcc decode chip _ (188 * _)).head? =
      (nandreadEcc decode chip' _ (188 * _)).head?
    have hroom := words_fit ho.2
    have hfetch : chip.fetch (codePlace (b * nandBlockSize + o) 0) 204 =
        chip'.fetch (codePlace (b * nandBlockSize + o) 0) 204 := by
      apply fetch_congr
      intro i hi
      have hend := codePlace_end ho.1 hroom hb
      rw [Nat.mod_eq_of_lt (by omega)]
      exact hagree _ (codePlace_in ho.1 hroom hi)
    have hne : decode (chip'.fetch (codePlace (b * nandBlockSize + o) 0) 204) ≠ [] := by
      apply List.ne_nil_of_length_pos
      rw [h.decode_length _ (length_fetch _ _ _)]
      decide
    rw [nandreadEcc, nandreadEcc, Nat.mul_div_cancel_left _ (by decide : 0 < 188),
      List.range_succ_eq_map, List.flatMap_cons, List.flatMap_cons, List.head?_append_of_ne_nil,
      List.head?_append_of_ne_nil, hfetch]
    · exact hne
    · rwa [hfetch]
  spareAt_ge dist := by
    change dist ≤ dist / 16 * 16 + 16
    omega

/-- From the begin of a page, in words of the code. -/
def EccKept (o count : ℕ) : Prop :=
  (2048 ∣ o ∧ o < nandBlockSize) ∧ 188 ∣ count ∧ 0 < count

theorem ecc_keeps (h : Codes encode decode) : (ecc encode decode).Keeps eccCourse EccKept where
  offset hk := hk.1
  unit_dvd hk := hk.2.1
  rest {o count} hk hlt := by
    obtain ⟨ho, hunit, -⟩ := hk
    dsimp only [eccCourse] at *
    exact ⟨⟨Nat.dvd_zero _, by decide⟩, by omega, by omega⟩
  outside {o b a src} hk hb hne chip := by
    obtain ⟨ho, hunit, -⟩ := hk
    change (nandwriteEcc encode chip src _ (min ((64 - o / 2048) * 1880) src.length)).data a = _
    exact words_outside h.encode_length ho.1 hb (by omega) (by omega) hne
  back {o b src} hk hb chip chip' hagree := by
    obtain ⟨ho, hunit, -⟩ := hk
    change nandreadEcc decode chip' _ (min ((64 - o / 2048) * 1880) src.length) =
      src.take (min ((64 - o / 2048) * 1880) src.length)
    change ∀ a, a / nandBlockSize = b → chip'.data a = (nandwriteEcc encode (chip.erase b) src
      (b * nandBlockSize + o) (min ((64 - o / 2048) * 1880) src.length)).data a at hagree
    obtain ⟨m, hm⟩ : 188 ∣ min ((64 - o / 2048) * 1880) src.length := by omega
    rw [hm] at hagree ⊢
    rw [nandwriteEcc_eq, Nat.mul_div_cancel_left m (by decide : 0 < 188)] at hagree
    rw [nandreadEcc, Nat.mul_div_cancel_left m (by decide : 0 < 188),
      ← flatMap_wordAt (show 188 * m ≤ src.length by omega)]
    apply List.flatMap_congr
    intro k hk
    rw [List.mem_range] at hk
    have hlen := length_wordAt src k (by omega)
    have hfetch :
        chip'.fetch (codePlace (b * nandBlockSize + o) k) 204 = encode (wordAt src k) := by
      apply List.ext_getElem
      · rw [length_fetch, h.encode_length _ hlen]
      · intro i hi hi'
        rw [length_fetch] at hi
        have hend := codePlace_end ho.1 (show k < (64 - o / 2048) * 10 by omega) hb
        simp only [NandChip.fetch, List.getElem_map, List.getElem_range]
        rw [Nat.mod_eq_of_lt (by omega), hagree _ (codePlace_in ho.1 (by omega) hi),
          words_inside h.encode_length ho.1 hb (by omega) (by omega) hk hi]
        exact List.getD_eq_getElem _ _ _
    rw [hfetch, h.decode_encode _ hlen]
  spareAt_le {o count} hk dist := by
    obtain ⟨-, hunit, hpos⟩ := hk
    change dist / 16 * 16 + 16 + 16 ≤ dist + count
    change 188 ∣ count at hunit
    omega

end Pmon.Fs.NandPages
