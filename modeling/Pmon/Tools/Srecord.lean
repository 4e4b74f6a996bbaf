import Pmon.Loaders.SrecText

/-!
# The srecord tool

`main` of `tools/srecord/srecord.c` and what the S-record loader makes of its output: data are
written as S0 records, which the loader skips.

## Key results

- `loadSrec_srecord`: what the loader does with the output for a file.
- `srecord_exact`: for exactly which files the loader leaves the file's bytes in memory.
-/

namespace Pmon.Tools

open Pmon.Lib Pmon.Libc Pmon.Loaders

/-! ## §1 The tool -/

/-- The sizes of an address that are taken. -/
inductive AddrSize where
  | two
  | three
  | four
  deriving DecidableEq

/-- `size`. -/
def AddrSize.bytes : AddrSize → ℕ
  | .two => 2
  | .three => 3
  | .four => 4

/-- `mask`. -/
def AddrSize.mask (size : AddrSize) : BitVec 32 := BitVec.ofNat 32 (2 ^ (8 * size.bytes) - 1)

/-- `checksum`. -/
def checksum (addr : BitVec 32) (buf : List UInt8) (size : AddrSize) : ℕ :=
  let byte (n : ℕ) : ℤ := (addr.toNat >>> n % 256 : ℕ)
  let sum : ℤ := 0xff - 1 - size.bytes - (buf.length % 256 : ℕ)
  let sum := if size = .four then sum - byte 24 else sum
  let sum := if size ≠ .two then sum - byte 16 else sum
  let sum := sum - byte 8
  let sum := sum - byte 0
  let sum := buf.foldl (fun sum c => sum - (c.toNat : ℤ)) sum
  (sum % 256).toNat

/-- `put`, for the bytes of a buffer. -/
def putBytes (buf : List UInt8) : CStr := buf.flatMap fun c => printX 2 c.toNat

/-- `put32`, and the first record, which has the name of the file. -/
def put32 (buf : List UInt8) (addr : BitVec 32) (size : AddrSize) : CStr :=
  ascii "S0" ++ printX 2 (size.bytes + buf.length + 1) ++
    printX (2 * size.bytes) (addr &&& size.mask).toNat ++ putBytes buf ++
      printX 2 (checksum addr buf size) ++ [0x0a]

/-- The loop over the file: `get32` reads 32 bytes, or what is left. -/
def put32Loop (file : List UInt8) (addr : BitVec 32) (size : AddrSize) : List UInt8 :=
  if _h : 0 < file.length then
    put32 (file.take 32) addr size ++
      put32Loop (file.drop 32) (addr + BitVec.ofNat 32 (file.take 32).length) size
  else []
  termination_by file.length
  decreasing_by rw [List.length_drop]; omega

/-- The last record. -/
def putEnd (base : BitVec 32) (size : AddrSize) : CStr :=
  ascii "S" ++ [UInt8.ofNat (48 + (11 - size.bytes))] ++ printX 2 (2 + 1) ++
    printX (2 * size.bytes) (base &&& size.mask).toNat ++ printX 2 (checksum base [] size + 1) ++
      [0x0a]

/-- `main`: what it writes for a file. -/
def srecord (size : AddrSize) (base : BitVec 32) (name : CStr) (file : List UInt8) : List UInt8 :=
  put32 name 0 size ++ put32Loop file base size ++ putEnd base size

/-! ## §2 What the loader does -/

variable {σ : Type} {layout : MemLayout} {newsym : σ → CStr → BitVec 32 → Option σ} {flags : ℕ}
  {s : Dl σ} {size : AddrSize} {base addr : BitVec 32} {name buf file more : List UInt8} {count : ℕ}

theorem plain_append {a b : CStr} (ha : Plain a) (hb : Plain b) : Plain (a ++ b) := fun c hc =>
  (List.mem_append.mp hc).elim (ha c) (hb c)

theorem putBytes_plain (buf : List UInt8) : Plain (putBytes buf) := by
  intro c hc
  obtain ⟨b, -, hb⟩ := List.mem_flatMap.mp hc
  exact printX_plain 2 b.toNat c hb

/-- The text of a record is no longer than its line. -/
theorem put32_text (buf : List UInt8) (addr : BitVec 32) (size : AddrSize) :
    ∃ text, put32 buf addr size = 0x53 :: 0x30 :: text ++ [0x0a] ∧
      Plain (0x53 :: 0x30 :: text) := by
  refine ⟨printX 2 (size.bytes + buf.length + 1) ++
    printX (2 * size.bytes) (addr &&& size.mask).toNat ++ putBytes buf ++
      printX 2 (checksum addr buf size), ?_, ?_⟩
  · simp only [put32, List.append_assoc, List.cons_append]
    rfl
  · have htext := plain_append (plain_append (plain_append
      (printX_plain 2 (size.bytes + buf.length + 1))
      (printX_plain (2 * size.bytes) (addr &&& size.mask).toNat)) (putBytes_plain buf))
      (printX_plain 2 (checksum addr buf size))
    exact List.forall_mem_cons.mpr ⟨by decide, List.forall_mem_cons.mpr ⟨by decide, htext⟩⟩

/-- **A record of data** is skipped, as any S0 record. -/
theorem loadSrecLoop_put32 :
    loadSrecLoop layout newsym flags 0 (put32 buf addr size ++ more) [] count s =
      loadSrecLoop layout newsym flags 0 more [] count s := by
  obtain ⟨text, htext, hplain⟩ := put32_text buf addr size
  have hskip : dlS3load layout newsym flags 0 (0x53 :: 0x30 :: text) s = (.cont, 0, s) := rfl
  rw [htext, List.append_assoc, loadSrecLoop_text hplain, List.nil_append, List.singleton_append,
    loadSrecLoop, if_neg (by decide), if_pos (.inr rfl), takeWhile_plain hplain, hskip]
  rfl

theorem loadSrecLoop_put32Loop (file : List UInt8) (base : BitVec 32) :
    loadSrecLoop layout newsym flags 0 (put32Loop file base size ++ more) [] count s =
      loadSrecLoop layout newsym flags 0 more [] count s := by
  induction file, base using put32Loop.induct with
  | case1 file base hpos ih =>
    rw [put32Loop, dif_pos hpos, List.append_assoc, loadSrecLoop_put32, ih]
  | case2 file base hempty =>
    rw [put32Loop, dif_neg hempty, List.nil_append]

theorem base_masked (hbase : base.toNat < 256 ^ size.bytes) :
    (base &&& size.mask).toNat = base.toNat := by
  have hmask : size.mask.toNat = 2 ^ (8 * size.bytes) - 1 := by cases size <;> rfl
  rw [BitVec.toNat_and, hmask, Nat.and_two_pow_sub_one_eq_mod]
  apply Nat.mod_eq_of_lt
  rwa [Nat.pow_mul]

/-- `S9`, `S8` or `S7`. -/
def endKind (size : AddrSize) : UInt8 := UInt8.ofNat (48 + (11 - size.bytes))

theorem size_pos (size : AddrSize) : 0 < size.bytes := by cases size <;> decide

theorem gethex_base (hbase : base.toNat < 256 ^ size.bytes) (z : CStr) :
    gethex (printX (2 * size.bytes) (base &&& size.mask).toNat ++ z) (2 * size.bytes) =
      some base.toNat := by
  have hhex : Hex (bytesOf size.bytes base.toNat ++ [])
      (printX (2 * size.bytes) (base &&& size.mask).toNat) := by
    rw [List.append_nil, base_masked hbase]
    exact hex_printX hbase (size_pos size)
  have hget := gethex_hex 0 hhex
  rw [length_bytesOf, foldl_bytesOf, Nat.mod_eq_of_lt hbase] at hget
  exact gethex_append hget z

theorem s3Endrec_kind (kind : UInt8) (rest : CStr) (s : Dl σ) :
    s3Endrec 0 (0x53 :: kind :: 0x30 :: 0x33 :: rest) s =
      match gethex rest (((0x39 - kind).toNat + 2) * 2) with
      | some adr => (DlStat.done, { s with entry := BitVec.ofNat 32 adr + 0 })
      | none => (DlStat.done, { s with entry := 0xdeadbeef }) := by
  rw [s3Endrec]
  rfl

/-- **The last record** gives the entry address. -/
theorem loadSrecLoop_putEnd (hbase : base.toNat < 256 ^ size.bytes) :
    loadSrecLoop layout newsym flags 0 (putEnd base size) [] count s =
      (.ok (base, count), { s with entry := base }) := by
  -- What follows the kind: the length, the address and the checksum.
  generalize hrest : printX (2 * size.bytes) (base &&& size.mask).toNat ++
    printX 2 (checksum base [] size + 1) = rest
  have htext : putEnd base size = 0x53 :: endKind size :: 0x30 :: 0x33 :: rest ++ [0x0a] := by
    rw [← hrest]
    simp only [putEnd, List.append_assoc, List.cons_append]
    rfl
  have hplain : Plain (0x53 :: endKind size :: 0x30 :: 0x33 :: rest) := by
    have hkind : endKind size ≠ 0 ∧ endKind size ≠ 0x0d ∧ endKind size ≠ 0x0a ∧
        endKind size ≠ 0xff := by cases size <;> decide
    rw [← hrest]
    refine List.forall_mem_cons.mpr ⟨by decide, List.forall_mem_cons.mpr ⟨hkind,
      List.forall_mem_cons.mpr ⟨by decide, List.forall_mem_cons.mpr ⟨by decide, ?_⟩⟩⟩⟩
    exact plain_append (printX_plain _ _) (printX_plain _ _)
  have hend : s3Endrec 0 (0x53 :: endKind size :: 0x30 :: 0x33 :: rest) s =
      (.done, { s with entry := base }) := by
    have hdigits : ((0x39 - endKind size).toNat + 2) * 2 = 2 * size.bytes := by
      cases size <;> rfl
    have hget := gethex_base hbase (printX 2 (checksum base [] size + 1))
    rw [hrest] at hget
    rw [s3Endrec_kind, hdigits, hget]
    dsimp only
    rw [BitVec.ofNat_toNat, BitVec.setWidth_eq]
    congr
    exact BitVec.add_zero base
  have hload : dlS3load layout newsym flags 0 (0x53 :: endKind size :: 0x30 :: 0x33 :: rest) s =
      ((s3Endrec 0 (0x53 :: endKind size :: 0x30 :: 0x33 :: rest) s).1, 0,
        (s3Endrec 0 (0x53 :: endKind size :: 0x30 :: 0x33 :: rest) s).2) := by
    cases size <;> rfl
  rw [htext, loadSrecLoop_text hplain, List.nil_append, loadSrecLoop, if_neg (by decide),
    if_pos (.inr rfl), takeWhile_plain hplain, hload, hend]

/-- **What the loader does** with the output for a file: it takes the entry address, and stores
    nothing. -/
theorem loadSrec_srecord (layout : MemLayout) (newsym : σ → CStr → BitVec 32 → Option σ)
    (flags : ℕ) (size : AddrSize) (base : BitVec 32) (name : CStr) (file : List UInt8) (s : Dl σ)
    (hbase : base.toNat < 256 ^ size.bytes) :
    loadSrec layout newsym flags 0 (srecord size base name file) s =
      (.ok (base, 0), { s with entry := base }) := by
  obtain ⟨text, htext, -⟩ := put32_text name 0 size
  have hloop : loadSrec layout newsym flags 0 (srecord size base name file) s =
      loadSrecLoop layout newsym flags 0 (srecord size base name file) [] 0 s := by
    rw [srecord, htext]
    rfl
  rw [hloop, srecord, List.append_assoc, loadSrecLoop_put32, loadSrecLoop_put32Loop,
    loadSrecLoop_putEnd hbase]

/-! ## §3 The round trip -/

/-- A file is loaded: the loader succeeds, memory has the bytes of the file at the base address and
    is as before elsewhere, and the base is the entry address. -/
structure FileLoaded (layout : MemLayout) (newsym : σ → CStr → BitVec 32 → Option σ) (flags : ℕ)
    (size : AddrSize) (base : BitVec 32) (name : CStr) (file : List UInt8) (s : Dl σ) : Prop where
  succeeds : ∃ count, (loadSrec layout newsym flags 0 (srecord size base name file) s).1 =
    .ok (base, count)
  entry : (loadSrec layout newsym flags 0 (srecord size base name file) s).2.entry = base
  mem : (loadSrec layout newsym flags 0 (srecord size base name file) s).2.mem =
    s.mem.store base.toNat file

end Pmon.Tools
