import Pmon.Loaders.SrecText

/-!
# The dump command

`cmd_sdump` of `pmon/cmds/sdump.c`: the S-records that it writes for a range of memory.

## Key results

- `dumpRecord_text`: every line is a data record with a piece of the range.
-/

namespace Pmon.Cmds

open Pmon.Lib Pmon.Libc Pmon.Loaders

/-! ## §1 The text -/

/-- The line terminator that `ulcr` selects. -/
def ulcrEol (ulcr : CStr) : CStr :=
  if striequ ulcr (ascii "cr") then [0x0d]
  else if striequ ulcr (ascii "lf") then [0x0a]
  else [0x0d, 0x0a]

/-- The bytes that `load_byte` reads. -/
def loadBytes (mem : Mem) (adr : BitVec 32) (len : ℕ) : List UInt8 :=
  (List.range len).map fun i => mem (adr + BitVec.ofNat 32 i).toNat

/-- `cs`, before it is complemented. -/
def dumpSum (mem : Mem) (adr : BitVec 32) (len : ℕ) : ℕ :=
  len + 5 + ((List.range 4).map fun i => adr.toNat >>> (i * 8) &&& 0xff).sum +
    ((loadBytes mem adr len).map UInt8.toNat).sum

/-- The record for `len` bytes. -/
def dumpRecord (mem : Mem) (adr : BitVec 32) (len : ℕ) : CStr :=
  ascii "S3" ++ printX 2 (len + 5) ++ printX 8 adr.toNat ++
    ((loadBytes mem adr len).map UInt8.toNat).flatMap (printX 2) ++
      printX 2 (~~~BitVec.ofNat 32 (dumpSum mem adr len) &&& 0xff#32).toNat

/-- The loop over the range. -/
def sdumpLoop (mem : Mem) (eol : CStr) (adr : BitVec 32) (siz : ℕ) : List UInt8 :=
  if _h : 0 < siz then
    let len := if siz < 32 then siz else 32
    dumpRecord mem adr len ++ eol ++ sdumpLoop mem eol (adr + BitVec.ofNat 32 len) (siz - len)
  else []
  termination_by siz
  decreasing_by split <;> omega

/-- What `cmd_sdump` writes when it does not dump a binary image. -/
def cmdSdump (mem : Mem) (ulcr uleof : CStr) (adr siz : BitVec 32) : List UInt8 :=
  let eol := ulcrEol ulcr
  sdumpLoop mem eol adr siz.toNat ++ ascii "S70500000000FA" ++ eol ++ uleof

/-! ## §2 The records -/

variable {mem : Mem} {adr : BitVec 32} {len : ℕ}

theorem addr_sum (adr : BitVec 32) :
    ((List.range 4).map fun i => adr.toNat >>> (i * 8) &&& 0xff).sum =
      (bytesOf 4 adr.toNat).sum := by
  have hmask : ∀ v, v &&& 0xff = v % 256 := fun v => Nat.and_two_pow_sub_one_eq_mod v 8
  simp only [hmask, Nat.shiftRight_eq_div_pow, bytesOf, List.sum_append, List.sum_cons,
    List.sum_nil, List.range_succ, List.range_zero, List.map_append, List.map_cons, List.map_nil,
    List.nil_append, Nat.div_div_eq_div_mul]
  omega

/-- The sum is complemented and masked. -/
theorem complement_mask (cs : ℕ) :
    (~~~BitVec.ofNat 32 cs &&& 0xff#32).toNat = 255 - cs % 256 := by
  have hmask : ∀ v, v &&& 255 = v % 256 := fun v => Nat.and_two_pow_sub_one_eq_mod v 8
  rw [BitVec.toNat_and, BitVec.toNat_not, BitVec.toNat_ofNat]
  change (2 ^ 32 - 1 - cs % 2 ^ 32) &&& 255 = _
  rw [hmask]
  omega

/-- The data of a record. -/
def dumpData (mem : Mem) (adr : BitVec 32) (len : ℕ) : List ℕ :=
  (loadBytes mem adr len).map UInt8.toNat

theorem length_dumpData : (dumpData mem adr len).length = len := by
  rw [dumpData, List.length_map, loadBytes, List.length_map, List.length_range]

theorem dumpData_lt : ∀ b ∈ dumpData mem adr len, b < 256 := by
  intro b hb
  obtain ⟨c, -, rfl⟩ := List.mem_map.mp hb
  exact c.toNat_lt

/-- **A line of a dump** is a data record of its bytes. -/
theorem dumpRecord_text (mem : Mem) (adr : BitVec 32) (hlen : len ≤ 32) :
    IsRecord 0x33 (bytesOf 4 adr.toNat ++ dumpData mem adr len) (dumpRecord mem adr len) := by
  have hbody : (bytesOf 4 adr.toNat ++ dumpData mem adr len).length + 1 = len + 5 := by
    rw [List.length_append, length_bytesOf, length_dumpData]
    omega
  have hsum : dumpSum mem adr len =
      len + 5 + (bytesOf 4 adr.toNat ++ dumpData mem adr len).sum := by
    rw [dumpSum, addr_sum, List.sum_append, Nat.add_assoc]
    rfl
  have hcount : Hex [len + 5] (printX 2 (len + 5)) := hex_byte (by omega)
  have haddr : Hex (bytesOf 4 adr.toNat) (printX 8 adr.toNat) :=
    hex_printX (k := 4) adr.isLt (by decide)
  have hdata : Hex (dumpData mem adr len) ((dumpData mem adr len).flatMap (printX 2)) :=
    hex_bytes dumpData_lt
  have hcs : Hex [255 - (len + 5 + (bytesOf 4 adr.toNat ++ dumpData mem adr len).sum) % 256]
      (printX 2 (~~~BitVec.ofNat 32 (dumpSum mem adr len) &&& 0xff#32).toNat) := by
    rw [complement_mask, hsum]
    exact hex_byte (by omega)
  have hbytes := hcount.append ((haddr.append hdata).append hcs)
  rw [← hbody, List.singleton_append, ← List.cons_append] at hbytes
  refine ⟨_, ?_, hbytes⟩
  rw [dumpRecord, hbody]
  simp only [List.append_assoc]
  rfl

/-- The record of a line. -/
def dumpRec (mem : Mem) (adr : BitVec 32) {len : ℕ} (hlen : len ≤ 32) : DataRec where
  n := 3
  addr := bytesOf 4 adr.toNat
  data := dumpData mem adr len
  text := dumpRecord mem adr len
  width := .inr (.inr rfl)
  length_addr := length_bytesOf
  record := dumpRecord_text mem adr hlen

theorem dumpRec_place (hlen : len ≤ 32) : (dumpRec mem adr hlen).place 0 = adr := by
  change word (bytesOf 4 adr.toNat) + 0#32 = adr
  rw [BitVec.add_zero, word, foldl_bytesOf]
  apply BitVec.eq_of_toNat_eq
  have hadr := adr.isLt
  rw [BitVec.toNat_ofNat]
  omega

/-- What a line stores: what stood there in the memory that was dumped. -/
theorem dumpRec_store (hlen : len ≤ 32) (hwrap : adr.toNat + len ≤ 2 ^ 32) (m : Mem) :
    m.storeMod ((dumpRec mem adr hlen).place 0).toNat
        ((dumpRec mem adr hlen).data.map UInt8.ofNat) =
      m.store adr.toNat (mem.slice adr.toNat len) := by
  have hdata : (dumpRec mem adr hlen).data.map UInt8.ofNat = mem.slice adr.toNat len := by
    change (dumpData mem adr len).map UInt8.ofNat = _
    rw [dumpData, loadBytes, List.map_map, List.map_map]
    refine List.ext_getElem (by simp) fun i h₁ h₂ => ?_
    rw [List.length_map, List.length_range] at h₁
    have hcell : (adr + BitVec.ofNat 32 i).toNat = adr.toNat + i := by
      rw [BitVec.toNat_add, BitVec.toNat_ofNat]
      omega
    rw [List.getElem_map, List.getElem_range, Function.comp_apply, Function.comp_apply,
      UInt8.ofNat_toNat, hcell]
    exact (mem.holds_slice adr.toNat len).getElem (by rwa [Mem.length_slice])
  rw [dumpRec_place, hdata, Mem.storeMod_eq_store (by rw [Mem.length_slice]; exact hwrap)]

/-- `S70500000000FA`. -/
theorem endRecord_text : IsRecord 0x37 (bytesOf 4 0) (ascii "S70500000000FA") := by
  have hzero : HexDigit 0 48 := .inl rfl
  refine ⟨ascii "0500000000FA", rfl, ?_⟩
  exact @Hex.cons 0 5 _ _ _ _ hzero (.inl rfl) (.cons hzero hzero (.cons hzero hzero
    (.cons hzero hzero (.cons hzero hzero (@Hex.cons 15 10 _ _ _ _ (.inr rfl) (.inr rfl) .nil)))))

/-- The end record, which sets no entry address. -/
def dumpEnd : EndRec where
  n := 3
  addr := bytesOf 4 0
  text := ascii "S70500000000FA"
  width := .inr (.inr rfl)
  length_addr := rfl
  record := endRecord_text

end Pmon.Cmds
