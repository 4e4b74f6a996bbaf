import Mathlib.Data.List.TakeWhile
import Mathlib.Order.Lattice.Nat
import Mathlib.Order.OrderDual
import Mathlib.Tactic.IntervalCases
import Pmon.Lib.Extremes
import Pmon.Loaders.Srec

/-!
# Loading S-records

What a file of S-records says, and that `load_srec` does it: the data bytes go to their
addresses, the limits are those of the data and the entry address is that of the end record.
Two things can go wrong.  An end record whose line ends with the file is a read error; and a
record without data sets the limits as if it had some.

## Key results

- `gethex_hex`, `readAddr_hex`, `storeLoop_hex`: the decoding loops on hexadecimal text.
- `s3Datarec_record`: a data record does what it says.
- `loadSrecLoop_lines`: so does a sequence of them.
- `loadSrec_exact`: exactly which files are loaded as they say.
-/

namespace Pmon.Loaders

open Pmon.Lib Pmon.Libc

variable {σ : Type} {layout : MemLayout} {newsym : σ → CStr → BitVec 32 → Option σ}
  {flags : ℕ} {offset : BitVec 32} {s : Dl σ} {m : Mem} {bs body : List ℕ} {hex more : CStr}
  {n v chksum count : ℕ} {addr : BitVec 32} {kind : UInt8}

/-! ## §1 Records -/

/-- `c` is the hexadecimal digit `d`. -/
def HexDigit (d : ℕ) (c : UInt8) : Prop :=
  (ascii "0123456789abcdef")[d]? = some c ∨ (ascii "0123456789ABCDEF")[d]? = some c

/-- Text that spells bytes out, two digits each. -/
inductive Hex : List ℕ → CStr → Prop where
  | nil : Hex [] []
  | cons {hi lo : ℕ} {a b : UInt8} {bs : List ℕ} {hex : CStr} :
      HexDigit hi a → HexDigit lo b → Hex bs hex → Hex ((16 * hi + lo) :: bs) (a :: b :: hex)

/-- The bytes of a record: how many follow, what it is about, the checksum. -/
def recordBytes (body : List ℕ) : List ℕ :=
  (body.length + 1) :: body ++ [255 - (body.length + 1 + body.sum) % 256]

/-- The text of a record: `S`, its type and its bytes. -/
def IsRecord (kind : UInt8) (body : List ℕ) (text : CStr) : Prop :=
  ∃ hex, text = 0x53 :: kind :: hex ∧ Hex (recordBytes body) hex

/-- A big-endian word. -/
def word (bs : List ℕ) : BitVec 32 := BitVec.ofNat 32 (bs.foldl (fun v b => v * 256 + b) 0)

/-- An S1, S2 or S3 record. -/
structure DataRec where
  n : ℕ
  addr : List ℕ
  data : List ℕ
  text : CStr
  width : n = 1 ∨ n = 2 ∨ n = 3
  length_addr : addr.length = n + 1
  record : IsRecord (UInt8.ofNat (0x30 + n)) (addr ++ data) text

/-- An S7, S8 or S9 record. -/
structure EndRec where
  n : ℕ
  addr : List ℕ
  text : CStr
  width : n = 1 ∨ n = 2 ∨ n = 3
  length_addr : addr.length = n + 1
  record : IsRecord (UInt8.ofNat (0x3a - n)) addr text

/-- A line before the end record: an S0 record or a data record. -/
inductive SLine where
  | header (body : List ℕ) (text : CStr) (record : IsRecord 0x30 body text)
  | data (r : DataRec)

def SLine.text : SLine → CStr
  | .header _ text _ => text
  | .data r => r.text

/-- What stands behind the text of the end record. -/
inductive Ending where
  | eof
  | lf (rest : List UInt8)
  | crlf (rest : List UInt8)

def Ending.bytes : Ending → List UInt8
  | .eof => []
  | .lf rest => 0x0a :: rest
  | .crlf rest => 0x0d :: 0x0a :: rest

/-- A file of S-records; a line ends with LF or with CR and LF. -/
structure SFile where
  lines : List (SLine × Bool)
  last : EndRec
  ending : Ending

def eol (cr : Bool) : List UInt8 := if cr then [0x0d, 0x0a] else [0x0a]

def SFile.bytes (file : SFile) : List UInt8 :=
  file.lines.flatMap (fun (line, cr) => line.text ++ eol cr) ++ (file.last.text ++ file.ending.bytes)

def SFile.dataRecs (file : SFile) : List DataRec :=
  file.lines.filterMap fun
    | (.header .., _) => none
    | (.data r, _) => some r

/-- Where the data of a record go. -/
def DataRec.place (r : DataRec) (offset : BitVec 32) : BitVec 32 := word r.addr + offset

/-- The end of the data of a record. -/
def DataRec.stop (r : DataRec) (offset : BitVec 32) : BitVec 32 :=
  r.place offset + BitVec.ofNat 32 r.data.length

/-- Memory with the data of some records. -/
def withData (offset : BitVec 32) (m : Mem) (rs : List DataRec) : Mem :=
  rs.foldl (fun m r => m.storeMod (r.place offset).toNat (r.data.map UInt8.ofNat)) m

/-- The limits of a range put into the limits so far. -/
def widen (offset : BitVec 32) (lim : LoadLimits) (r : DataRec) : LoadLimits where
  minaddr := if r.place offset < lim.minaddr then r.place offset else lim.minaddr
  maxaddr := if r.stop offset > lim.maxaddr then r.stop offset else lim.maxaddr

/-- The lowest address and the end of some records. -/
def limitsOf (offset : BitVec 32) (rs : List DataRec) : LoadLimits :=
  rs.foldl (widen offset) .initial

/-! ## §2 The decoding loops -/

theorem HexDigit.lt {d : ℕ} {c : UInt8} (h : HexDigit d c) : d < 16 := by
  rcases h with h | h
  · obtain ⟨hd, -⟩ := List.getElem?_eq_some_iff.mp h
    exact hd
  · obtain ⟨hd, -⟩ := List.getElem?_eq_some_iff.mp h
    exact hd

theorem HexDigit.gethex {d : ℕ} {c : UInt8} (h : HexDigit d c) :
    gethex (c :: more) (n + 1) v = gethex more n (v * 16 + d) := by
  have hlt := h.lt
  unfold HexDigit at h
  interval_cases d <;> rcases h with h | h <;> cases h <;> rfl

/-- Digits are none of the characters that are special in a file. -/
theorem HexDigit.plain {d : ℕ} {c : UInt8} (h : HexDigit d c) :
    c ≠ 0 ∧ c ≠ 0x0d ∧ c ≠ 0x0a ∧ c ≠ 0xff := by
  have hlt := h.lt
  unfold HexDigit at h
  interval_cases d <;> rcases h with h | h <;> cases h <;> decide

theorem Hex.length_eq (h : Hex bs hex) : hex.length = 2 * bs.length := by
  induction h with
  | nil => rfl
  | cons _ _ _ ih =>
    rw [List.length_cons, List.length_cons, ih, List.length_cons]
    omega

theorem Hex.plain (h : Hex bs hex) : ∀ c ∈ hex, c ≠ 0 ∧ c ≠ 0x0d ∧ c ≠ 0x0a ∧ c ≠ 0xff := by
  induction h with
  | nil => exact fun c hc => absurd hc List.not_mem_nil
  | cons ha hb _ ih =>
    rw [List.forall_mem_cons, List.forall_mem_cons]
    exact ⟨ha.plain, hb.plain, ih⟩

/-- **`gethex`** on as many digits as the bytes have. -/
theorem gethex_hex (v : ℕ) (h : Hex (bs ++ body) hex) :
    gethex hex (2 * bs.length) v = some (bs.foldl (fun v b => v * 256 + b) v) := by
  induction bs generalizing hex v with
  | nil => cases hex <;> rfl
  | cons b bs ih =>
    cases h with
    | @cons hi lo _ _ _ _ ha hb hbs =>
      rw [List.length_cons, Nat.mul_succ, ha.gethex, hb.gethex, ih _ hbs, List.foldl_cons,
        show (v * 16 + hi) * 16 + lo = v * 256 + (16 * hi + lo) by omega]

theorem gethex_byte {b : ℕ} (h : Hex (b :: bs) hex) :
    gethex hex 2 = some b ∧ Hex bs (hex.drop 2) := by
  refine ⟨?_, ?_⟩
  · have hcons : Hex ([b] ++ bs) hex := h
    have hget := gethex_hex 0 hcons
    rwa [List.foldl_cons, List.foldl_nil, Nat.zero_mul, Nat.zero_add] at hget
  · cases h with
    | cons _ _ hbs => exact hbs

theorem shift_add (v b : ℕ) :
    (BitVec.ofNat 32 v <<< 8) + BitVec.ofNat 32 b = BitVec.ofNat 32 (v * 256 + b) := by
  apply BitVec.eq_of_toNat_eq
  rw [BitVec.toNat_add, BitVec.toNat_shiftLeft, BitVec.toNat_ofNat, BitVec.toNat_ofNat,
    BitVec.toNat_ofNat, Nat.shiftLeft_eq]
  omega

theorem readAddr_hex (v chksum : ℕ) (h : Hex (bs ++ body) hex) (hn : bs.length = n + 1) :
    ∃ hex', Hex body hex' ∧
      readAddr n hex (BitVec.ofNat 32 v) chksum =
        .ok (BitVec.ofNat 32 (bs.foldl (fun v b => v * 256 + b) v), chksum + bs.sum, hex') := by
  induction n generalizing bs hex v chksum with
  | zero =>
    obtain ⟨b, rfl⟩ := List.length_eq_one_iff.mp hn
    obtain ⟨hget, hbs⟩ := gethex_byte h
    refine ⟨hex.drop 2, hbs, ?_⟩
    rw [readAddr, hget]
    dsimp only
    rw [shift_add]
    rfl
  | succ n ih =>
    cases bs with
    | nil => cases hn
    | cons b bs =>
      obtain ⟨hget, hbs⟩ := gethex_byte h
      obtain ⟨hex', hbody, hread⟩ := ih (v * 256 + b) (chksum + b) hbs (Nat.succ.inj hn)
      refine ⟨hex', hbody, ?_⟩
      rw [readAddr, hget]
      dsimp only
      rw [shift_add, hread, List.foldl_cons, List.sum_cons, Nat.add_assoc]

theorem storeLoop_hex (addr : BitVec 32) (chksum : ℕ) (m : Mem) (h : Hex (bs ++ body) hex) :
    ∃ hex', Hex body hex' ∧
      storeLoop bs.length hex addr chksum m =
        (m.storeMod addr.toNat (bs.map UInt8.ofNat), some (chksum + bs.sum, hex')) := by
  induction bs generalizing hex addr chksum m with
  | nil => exact ⟨hex, h, rfl⟩
  | cons b bs ih =>
    obtain ⟨hget, hbs⟩ := gethex_byte h
    obtain ⟨hex', hbody, hstore⟩ :=
      ih (addr + 1) (chksum + b) (m.put addr.toNat (UInt8.ofNat b)) hbs
    refine ⟨hex', hbody, ?_⟩
    have hnext : (addr + 1).toNat % 4294967296 = (addr.toNat + 1) % 4294967296 := by
      rw [BitVec.toNat_add]
      change (addr.toNat + 1) % 4294967296 % 4294967296 = _
      omega
    rw [List.length_cons, storeLoop, hget]
    dsimp only
    rw [hstore, List.map_cons, Mem.storeMod, List.sum_cons, Nat.add_assoc,
      Nat.mod_eq_of_lt addr.isLt, Mem.storeMod_congr hnext]

/-! ## §3 One record -/

theorem dlChecksetloadaddr_ok {a size : BitVec 32} {verbose : Bool} (lim : LoadLimits)
    (verbose' : Bool) (h : (dlCheckloadaddr layout a size verbose).1 = true) :
    ∃ out, dlChecksetloadaddr layout lim a size verbose' =
      ((true, out), ⟨if a < lim.minaddr then a else lim.minaddr,
        if a + size > lim.maxaddr then a + size else lim.maxaddr⟩) := by
  have h' : (dlCheckloadaddr layout a size verbose').1 = true := by
    rw [dlCheckloadaddr_fst] at h ⊢
    exact h
  unfold dlChecksetloadaddr
  cases hcheck : dlCheckloadaddr layout a size verbose' with
  | mk ok out =>
    rw [hcheck] at h'
    cases h'
    refine ⟨out, ?_⟩
    dsimp only
    split_ifs <;> rfl

/-- The data of a record may be loaded. -/
def Loadable (layout : MemLayout) (offset : BitVec 32) (r : DataRec) : Prop :=
  (dlCheckloadaddr layout (r.place offset) (BitVec.ofNat 32 r.data.length) false).1 = true

theorem addrBytes_record (r : DataRec) : addrBytes (UInt8.ofNat (0x30 + r.n)) = some r.n := by
  rcases r.width with h | h | h <;> rw [h] <;> rfl

/-- **A data record** puts its data to its address. -/
theorem s3Datarec_record (s : Dl σ) (r : DataRec) (hload : Loadable layout offset r)
    (hy : hasFlag flags yflag = false) :
    s3Datarec layout flags offset r.text s =
      (.cont, r.data.length,
        { s with
          mem := s.mem.storeMod (r.place offset).toNat (r.data.map UInt8.ofNat)
          lim := widen offset s.lim r }) := by
  obtain ⟨hex, htext, hrecord⟩ := r.record
  generalize hT : (r.addr ++ r.data).length + 1 = T at *
  have hT' : T = r.n + 2 + r.data.length := by
    rw [← hT, List.length_append, r.length_addr]
    omega
  have hhex : Hex
      (T :: (r.addr ++ (r.data ++ [255 - (T + (r.addr.sum + r.data.sum)) % 256]))) hex := by
    simpa [recordBytes, ← hT] using hrecord
  obtain ⟨hlen, hhex₁⟩ := gethex_byte hhex
  obtain ⟨hex₂, hhex₂, haddr⟩ := readAddr_hex 0 T hhex₁ r.length_addr
  obtain ⟨hex₃, hhex₃, hstore⟩ := storeLoop_hex (r.place offset) (T + r.addr.sum) s.mem hhex₂
  obtain ⟨hcs, -⟩ := gethex_byte hhex₃
  obtain ⟨out, hcheck⟩ := dlChecksetloadaddr_ok s.lim (hasFlag flags vflag) hload
  have hsize : r.text.length - 4 = T * 2 := by
    have hex_len := hhex.length_eq
    simp only [List.length_append, List.length_cons, List.length_nil] at hex_len
    rw [htext, List.length_cons, List.length_cons, hex_len, r.length_addr]
    omega
  have hcount : (T : ℤ) - (r.n + 2) = (r.data.length : ℤ) := by omega
  have hkind : r.text.getD 1 0 = UInt8.ofNat (0x30 + r.n) := by rw [htext]; rfl
  have hdrop₂ : r.text.drop 2 = hex := by rw [htext]; rfl
  have hdrop₄ : r.text.drop 4 = hex.drop 2 := by rw [htext]; rfl
  have hzero : (0 : BitVec 32) = BitVec.ofNat 32 0 := rfl
  unfold s3Datarec
  rw [hy, hdrop₂, hlen]
  simp only [hsize, hkind, addrBytes_record, hdrop₄, hzero, haddr, hcount, BitVec.ofInt_natCast,
    Int.toNat_natCast, ne_eq, not_true_eq_false, if_false, Bool.false_eq_true]
  have hplace : BitVec.ofNat 32 (r.addr.foldl (fun v b => v * 256 + b) 0) + offset =
      r.place offset := rfl
  rw [hplace, hcheck]
  simp only [hstore, hcs]
  rw [Nat.add_assoc, if_neg]
  · rfl
  · simp

/-- What a line does. -/
def lineEffect (flags : ℕ) (offset : BitVec 32) (s : Dl σ) : SLine → Dl σ
  | .header .. => s
  | .data r =>
    if hasFlag flags yflag then s
    else
      { s with
        mem := s.mem.storeMod (r.place offset).toNat (r.data.map UInt8.ofNat)
        lim := widen offset s.lim r }

theorem dlS3load_line (newsym : σ → CStr → BitVec 32 → Option σ) (flags : ℕ) (s : Dl σ)
    (line : SLine) (hload : ∀ r, line = .data r → Loadable layout offset r) :
    ∃ l, dlS3load layout newsym flags offset line.text s =
      (.cont, l, lineEffect flags offset s line) := by
  cases line with
  | header body text record =>
    obtain ⟨hex, rfl, -⟩ := record
    exact ⟨0, rfl⟩
  | data r =>
    have hkind : dlS3load layout newsym flags offset r.text s =
        s3Datarec layout flags offset r.text s := by
      obtain ⟨hex, htext, -⟩ := r.record
      rw [htext]
      rcases r.width with h | h | h <;> rw [h] <;> rfl
    unfold lineEffect
    rw [SLine.text, hkind]
    cases hy : hasFlag flags yflag
    · exact ⟨_, s3Datarec_record s r (hload r rfl) hy⟩
    · unfold s3Datarec
      rw [hy]
      exact ⟨0, rfl⟩

/-- **The end record** sets the entry address. -/
theorem dlS3load_last (s : Dl σ) (r : EndRec) :
    dlS3load layout newsym flags offset r.text s =
      (.done, 0, { s with entry := word r.addr + offset }) := by
  obtain ⟨hex, htext, hrecord⟩ := r.record
  rw [recordBytes, List.cons_append] at hrecord
  obtain ⟨-, hhex⟩ := gethex_byte hrecord
  have haddr := gethex_hex 0 hhex
  have hdrop : r.text.drop 4 = hex.drop 2 := by rw [htext]; rfl
  have hn : ((0x39 - r.text.getD 1 0).toNat + 2) * 2 = 2 * r.addr.length := by
    have hget : r.text.getD 1 0 = UInt8.ofNat (0x3a - r.n) := by rw [htext]; rfl
    rw [hget, r.length_addr]
    rcases r.width with h | h | h <;> rw [h] <;> decide
  have hkind : dlS3load layout newsym flags offset r.text s =
      ((s3Endrec offset r.text s).1, 0, (s3Endrec offset r.text s).2) := by
    rw [htext]
    rcases r.width with h | h | h <;> rw [h] <;> rfl
  rw [hkind]
  unfold s3Endrec
  dsimp only
  rw [hn, hdrop, haddr]
  rfl

/-! ## §4 The file -/

/-- Characters that a line consists of. -/
def Plain (text : CStr) : Prop := ∀ c ∈ text, c ≠ 0 ∧ c ≠ 0x0d ∧ c ≠ 0x0a ∧ c ≠ 0xff

theorem IsRecord.plain {text : CStr} (h : IsRecord kind body text)
    (hkind : kind ≠ 0 ∧ kind ≠ 0x0d ∧ kind ≠ 0x0a ∧ kind ≠ 0xff) : Plain text := by
  obtain ⟨hex, rfl, hhex⟩ := h
  unfold Plain
  rw [List.forall_mem_cons, List.forall_mem_cons]
  exact ⟨by decide, hkind, hhex.plain⟩

theorem SLine.plain (line : SLine) : Plain line.text := by
  cases line with
  | header body text record => exact record.plain (by decide)
  | data r => exact r.record.plain (by rcases r.width with h | h | h <;> rw [h] <;> decide)

theorem EndRec.plain (r : EndRec) : Plain r.text :=
  r.record.plain (by rcases r.width with h | h | h <;> rw [h] <;> decide)

theorem loadSrecLoop_text {text line more : List UInt8} (h : Plain text) :
    loadSrecLoop layout newsym flags offset (text ++ more) line count s =
      loadSrecLoop layout newsym flags offset more (line ++ text) count s := by
  induction text generalizing line with
  | nil => rw [List.nil_append, List.append_nil]
  | cons c text ih =>
    obtain ⟨⟨-, hcr, hlf, heof⟩, htext⟩ := List.forall_mem_cons.mp h
    rw [List.cons_append, loadSrecLoop, if_neg hcr, if_neg (by simp [hlf, heof]), ih htext,
      List.append_assoc]
    rfl

theorem takeWhile_plain {text : CStr} (h : Plain text) : text.takeWhile (· ≠ 0) = text := by
  rw [List.takeWhile_eq_self_iff]
  exact fun c hc => decide_eq_true (h c hc).1

theorem loadSrecLoop_line (newsym : σ → CStr → BitVec 32 → Option σ) (flags : ℕ) (line : SLine)
    (cr : Bool) (more : List UInt8) (count : ℕ) (s : Dl σ)
    (hload : ∀ r, line = .data r → Loadable layout offset r) :
    ∃ count', loadSrecLoop layout newsym flags offset (line.text ++ eol cr ++ more) [] count s =
      loadSrecLoop layout newsym flags offset more [] count' (lineEffect flags offset s line) := by
  obtain ⟨l, hline⟩ := dlS3load_line newsym flags s line hload
  refine ⟨count + l, ?_⟩
  rw [List.append_assoc, loadSrecLoop_text line.plain, List.nil_append]
  cases cr
  · rw [eol, if_neg Bool.false_ne_true, List.singleton_append, loadSrecLoop, if_neg (by decide),
      if_pos (Or.inr rfl), takeWhile_plain line.plain, hline]
  · rw [eol, if_pos rfl, List.cons_append, List.singleton_append, loadSrecLoop, if_pos rfl,
      loadSrecLoop, if_neg (by decide), if_pos (Or.inr rfl), takeWhile_plain line.plain, hline]

/-- **A sequence of lines** does what its records say, one after the other. -/
theorem loadSrecLoop_lines (newsym : σ → CStr → BitVec 32 → Option σ) (flags : ℕ)
    (lines : List (SLine × Bool)) (more : List UInt8) (count : ℕ) (s : Dl σ)
    (hload : ∀ r cr, (SLine.data r, cr) ∈ lines → Loadable layout offset r) :
    ∃ count', loadSrecLoop layout newsym flags offset
        (lines.flatMap (fun (line, cr) => line.text ++ eol cr) ++ more) [] count s =
      loadSrecLoop layout newsym flags offset more [] count'
        (lines.foldl (fun s (line, _) => lineEffect flags offset s line) s) := by
  induction lines generalizing count s with
  | nil => exact ⟨count, rfl⟩
  | cons p lines ih =>
    obtain ⟨line, cr⟩ := p
    obtain ⟨count₁, hline⟩ := loadSrecLoop_line newsym flags line cr
      (lines.flatMap (fun (line, cr) => line.text ++ eol cr) ++ more) count s
      fun r hr => hload r cr (hr ▸ List.mem_cons_self)
    obtain ⟨count₂, hlines⟩ := ih count₁ (lineEffect flags offset s line)
      fun r cr hr => hload r cr (List.mem_cons_of_mem _ hr)
    refine ⟨count₂, ?_⟩
    rw [List.flatMap_cons, List.append_assoc, hline, hlines]
    rfl

/-- What the lines of a file do. -/
theorem foldl_lineEffect (file : SFile) (s : Dl σ) :
    file.lines.foldl (fun s (line, _) => lineEffect flags offset s line) s =
      if hasFlag flags yflag then s
      else
        { s with
          mem := withData offset s.mem file.dataRecs
          lim := file.dataRecs.foldl (widen offset) s.lim } := by
  unfold SFile.dataRecs
  induction file.lines generalizing s with
  | nil => exact (ite_self s).symm
  | cons p lines ih =>
    obtain ⟨line, cr⟩ := p
    rw [List.foldl_cons, ih]
    cases line with
    | header body text record => rfl
    | data r =>
      unfold lineEffect
      cases hasFlag flags yflag <;> rfl

theorem loadSrec_bytes (layout : MemLayout) (newsym : σ → CStr → BitVec 32 → Option σ) (flags : ℕ)
    (offset : BitVec 32) (file : SFile) (s : Dl σ) :
    loadSrec layout newsym flags offset file.bytes s =
      loadSrecLoop layout newsym flags offset file.bytes [] 0 s := by
  have hline : ∀ line : SLine, ∃ t, line.text = 0x53 :: t := fun line => by
    cases line with
    | header body text record =>
      obtain ⟨hex, rfl, -⟩ := record
      exact ⟨_, rfl⟩
    | data r =>
      obtain ⟨hex, htext, -⟩ := r.record
      exact ⟨_, htext⟩
  have hfirst : ∃ rest, file.bytes = 0x53 :: rest := by
    unfold SFile.bytes
    cases file.lines with
    | nil =>
      obtain ⟨hex, htext, -⟩ := file.last.record
      exact ⟨_, by rw [htext]; rfl⟩
    | cons p lines =>
      obtain ⟨line, cr⟩ := p
      obtain ⟨t, ht⟩ := hline line
      refine ⟨t ++ eol cr ++ lines.flatMap (fun (line, cr) => line.text ++ eol cr) ++
        (file.last.text ++ file.ending.bytes), ?_⟩
      rw [List.flatMap_cons]
      dsimp only
      rw [ht]
      rfl
  obtain ⟨rest, hrest⟩ := hfirst
  rw [hrest]
  rfl

/-- **What `load_srec` does** with a file of S-records. -/
theorem loadSrec_file (layout : MemLayout) (newsym : σ → CStr → BitVec 32 → Option σ) (flags : ℕ)
    (offset : BitVec 32) (file : SFile) (s : Dl σ)
    (hload : ∀ r ∈ file.dataRecs, Loadable layout offset r) :
    ∃ count, loadSrec layout newsym flags offset file.bytes s =
      let s' := file.lines.foldl (fun s (line, _) => lineEffect flags offset s line) s
      let entry := word file.last.addr + offset
      match file.ending with
      | .eof => (.error .readError, s')
      | _ => (.ok (entry, count), { s' with entry }) := by
  have hrecs : ∀ r cr, (SLine.data r, cr) ∈ file.lines → Loadable layout offset r := fun r cr hr =>
    hload r (List.mem_filterMap.mpr ⟨_, hr, rfl⟩)
  obtain ⟨count, hlines⟩ := loadSrecLoop_lines newsym flags file.lines
    (file.last.text ++ file.ending.bytes) 0 s hrecs
  refine ⟨count, ?_⟩
  rw [loadSrec_bytes, SFile.bytes, hlines, loadSrecLoop_text file.last.plain, List.nil_append]
  cases file.ending with
  | eof => rfl
  | lf rest =>
    rw [Ending.bytes, loadSrecLoop, if_neg (by decide), if_pos (Or.inr rfl),
      takeWhile_plain file.last.plain, dlS3load_last]
  | crlf rest =>
    rw [Ending.bytes, loadSrecLoop, if_pos rfl, loadSrecLoop, if_neg (by decide),
      if_pos (Or.inr rfl), takeWhile_plain file.last.plain, dlS3load_last]

/-! ## §5 The limits -/

theorem minaddr_foldl (offset : BitVec 32) (rs : List DataRec) (lim : LoadLimits) :
    (rs.foldl (widen offset) lim).minaddr.toNat =
      runInf (fun r => (r.place offset).toNat) lim.minaddr.toNat rs := by
  induction rs generalizing lim with
  | nil => rfl
  | cons r rs ih =>
    rw [List.foldl_cons, ih]
    refine congrArg (runInf _ · rs) ?_
    change (if r.place offset < lim.minaddr then _ else _ : BitVec 32).toNat =
      min lim.minaddr.toNat (r.place offset).toNat
    split
    · rename_i hlt
      exact (Nat.min_eq_right (Nat.le_of_lt hlt)).symm
    · rename_i hge
      exact (Nat.min_eq_left (Nat.le_of_not_lt hge)).symm

theorem maxaddr_foldl (offset : BitVec 32) (rs : List DataRec) (lim : LoadLimits) :
    OrderDual.toDual (rs.foldl (widen offset) lim).maxaddr.toNat =
      runInf (fun r => OrderDual.toDual (r.stop offset).toNat)
        (OrderDual.toDual lim.maxaddr.toNat) rs := by
  induction rs generalizing lim with
  | nil => rfl
  | cons r rs ih =>
    rw [List.foldl_cons, ih]
    refine congrArg (runInf _ · rs) ?_
    change OrderDual.toDual (if r.stop offset > lim.maxaddr then _ else _ : BitVec 32).toNat =
      OrderDual.toDual (max lim.maxaddr.toNat (r.stop offset).toNat)
    refine congrArg OrderDual.toDual ?_
    split
    · rename_i hgt
      exact (Nat.max_eq_right (Nat.le_of_lt hgt)).symm
    · rename_i hle
      exact (Nat.max_eq_left (Nat.le_of_not_lt hle)).symm

/-- The record has data. -/
def DataRec.loads (r : DataRec) : Bool := ! r.data.isEmpty

/-- **The limits** are those of the records with data exactly if the others are within them. -/
theorem limitsOf_filter_iff (offset : BitVec 32) (rs : List DataRec) :
    limitsOf offset rs = limitsOf offset (rs.filter DataRec.loads) ↔
      ∀ r ∈ rs, r.data = [] →
        (limitsOf offset (rs.filter DataRec.loads)).minaddr ≤ r.place offset ∧
          r.place offset ≤ (limitsOf offset (rs.filter DataRec.loads)).maxaddr := by
  have hmin := runInf_filter_iff (f := fun r : DataRec => (r.place offset).toNat)
    (a := (LoadLimits.initial.minaddr).toNat) (l := rs) (p := DataRec.loads)
  have hmax := runInf_filter_iff (f := fun r : DataRec => OrderDual.toDual (r.stop offset).toNat)
    (a := OrderDual.toDual (LoadLimits.initial.maxaddr).toNat) (l := rs) (p := DataRec.loads)
  rw [← minaddr_foldl, ← minaddr_foldl] at hmin
  rw [← maxaddr_foldl, ← maxaddr_foldl] at hmax
  have hempty : ∀ r : DataRec, r.loads = false ↔ r.data = [] := fun r => by simp [DataRec.loads]
  have hstop : ∀ r : DataRec, r.data = [] → r.stop offset = r.place offset := fun r hr => by
    simp [DataRec.stop, hr]
  constructor
  · intro heq r hr hnone
    have hloads := (hempty r).mpr hnone
    refine ⟨hmin.mp (congrArg (fun l => l.minaddr.toNat) heq) r hr hloads, ?_⟩
    rw [← hstop r hnone]
    exact hmax.mp (congrArg (fun l => OrderDual.toDual l.maxaddr.toNat) heq) r hr hloads
  · intro hall
    have hlow := hmin.mpr fun r hr hloads => (hall r hr ((hempty r).mp hloads)).1
    have hhigh := hmax.mpr fun r hr hloads => by
      have hle := (hall r hr ((hempty r).mp hloads)).2
      rw [← hstop r ((hempty r).mp hloads)] at hle
      exact hle
    have hminaddr := BitVec.eq_of_toNat_eq hlow
    have hmaxaddr := BitVec.eq_of_toNat_eq (OrderDual.toDual.injective hhigh)
    unfold limitsOf
    cases hl : rs.foldl (widen offset) LoadLimits.initial
    cases hr : (rs.filter DataRec.loads).foldl (widen offset) LoadLimits.initial
    rw [hl, hr] at hminaddr hmaxaddr
    exact congrArg₂ LoadLimits.mk hminaddr hmaxaddr

/-! ## §6 Which files are loaded as they say -/

/-- **A load that does what the file says**, from the state that `dl_initialise` leaves. -/
structure Loads (layout : MemLayout) (newsym : σ → CStr → BitVec 32 → Option σ) (flags : ℕ)
    (offset : BitVec 32) (file : SFile) (s : Dl σ) : Prop where
  ok : ∃ count, (loadSrec layout newsym flags offset file.bytes s).1 =
    .ok (word file.last.addr + offset, count)
  mem : (loadSrec layout newsym flags offset file.bytes s).2.mem =
    withData offset s.mem file.dataRecs
  lim : (loadSrec layout newsym flags offset file.bytes s).2.lim =
    limitsOf offset (file.dataRecs.filter DataRec.loads)
  entry : (loadSrec layout newsym flags offset file.bytes s).2.entry = word file.last.addr + offset

/-- **The exact condition.** -/
def LoadsWhen (flags : ℕ) (offset : BitVec 32) (file : SFile) (m : Mem) : Prop :=
  file.ending ≠ .eof ∧
    if hasFlag flags yflag then
      m = withData offset m file.dataRecs ∧
        LoadLimits.initial = limitsOf offset (file.dataRecs.filter DataRec.loads)
    else
      ∀ r ∈ file.dataRecs, r.data = [] →
        (limitsOf offset (file.dataRecs.filter DataRec.loads)).minaddr ≤ r.place offset ∧
          r.place offset ≤ (limitsOf offset (file.dataRecs.filter DataRec.loads)).maxaddr

/-- **The S-record loader.**  A file of well-formed records whose data may all be loaded is loaded
as it says if and only if the line of its end record is ended and all records without data lie
within the limits of the data; with the flag for symbols only, if the data would change nothing. -/
theorem loadSrec_exact (layout : MemLayout) (newsym : σ → CStr → BitVec 32 → Option σ)
    (flags : ℕ) (offset : BitVec 32) (file : SFile) (m : Mem) (entry : BitVec 32) (syms : σ)
    (hload : ∀ r ∈ file.dataRecs, Loadable layout offset r) :
    Loads layout newsym flags offset file ⟨m, .initial, entry, syms⟩ ↔
      LoadsWhen flags offset file m := by
  obtain ⟨count, hrun⟩ := loadSrec_file layout newsym flags offset file
    ⟨m, .initial, entry, syms⟩ hload
  rw [foldl_lineEffect] at hrun
  by_cases heof : file.ending = .eof
  · rw [heof] at hrun
    refine iff_of_false (fun h => ?_) fun h => h.1 heof
    obtain ⟨count', hok⟩ := h.ok
    rw [hrun] at hok
    cases hok
  generalize hs : (if hasFlag flags yflag then _ else _ : Dl σ) = s at hrun
  have hdone : loadSrec layout newsym flags offset file.bytes ⟨m, .initial, entry, syms⟩ =
      (.ok (word file.last.addr + offset, count),
        { s with entry := word file.last.addr + offset }) := by
    rw [hrun]
    cases hend : file.ending with
    | eof => exact absurd hend heof
    | lf rest => rfl
    | crlf rest => rfl
  -- what is left to compare are memory and limits
  have hloads : Loads layout newsym flags offset file ⟨m, .initial, entry, syms⟩ ↔
      s.mem = withData offset m file.dataRecs ∧
        s.lim = limitsOf offset (file.dataRecs.filter DataRec.loads) := by
    constructor
    · intro h
      have hmem := h.mem
      have hlim := h.lim
      rw [hdone] at hmem hlim
      exact ⟨hmem, hlim⟩
    · rintro ⟨hmem, hlim⟩
      exact ⟨⟨count, by rw [hdone]⟩, by rw [hdone]; exact hmem, by rw [hdone]; exact hlim,
        by rw [hdone]⟩
  rw [hloads, ← hs]
  unfold LoadsWhen
  rw [and_iff_right heof]
  cases hasFlag flags yflag
  · exact ⟨fun h => (limitsOf_filter_iff offset file.dataRecs).mp h.2,
      fun h => ⟨rfl, (limitsOf_filter_iff offset file.dataRecs).mpr h⟩⟩
  · exact Iff.rfl

/-- `S1042000AA31`: one byte at `0x2000`. -/
def oneByte : DataRec where
  n := 1
  addr := [0x20, 0x00]
  data := [0xaa]
  text := ascii "S1042000AA31"
  width := Or.inl rfl
  length_addr := rfl
  record := ⟨ascii "042000AA31", rfl,
    @Hex.cons 0 4 _ _ _ _ (.inl rfl) (.inl rfl) (@Hex.cons 2 0 _ _ _ _ (.inl rfl) (.inl rfl)
      (@Hex.cons 0 0 _ _ _ _ (.inl rfl) (.inl rfl) (@Hex.cons 10 10 _ _ _ _ (.inr rfl) (.inr rfl)
        (@Hex.cons 3 1 _ _ _ _ (.inl rfl) (.inl rfl) .nil))))⟩

/-- `S1031000EC`: no data at `0x1000`. -/
def noByte : DataRec where
  n := 1
  addr := [0x10, 0x00]
  data := []
  text := ascii "S1031000EC"
  width := Or.inl rfl
  length_addr := rfl
  record := ⟨ascii "031000EC", rfl,
    @Hex.cons 0 3 _ _ _ _ (.inl rfl) (.inl rfl) (@Hex.cons 1 0 _ _ _ _ (.inl rfl) (.inl rfl)
      (@Hex.cons 0 0 _ _ _ _ (.inl rfl) (.inl rfl)
        (@Hex.cons 14 12 _ _ _ _ (.inr rfl) (.inr rfl) .nil)))⟩

/-- `S9030000FC`. -/
def endAtZero : EndRec where
  n := 1
  addr := [0x00, 0x00]
  text := ascii "S9030000FC"
  width := Or.inl rfl
  length_addr := rfl
  record := ⟨ascii "030000FC", rfl,
    @Hex.cons 0 3 _ _ _ _ (.inl rfl) (.inl rfl) (@Hex.cons 0 0 _ _ _ _ (.inl rfl) (.inl rfl)
      (@Hex.cons 0 0 _ _ _ _ (.inl rfl) (.inl rfl)
        (@Hex.cons 15 12 _ _ _ _ (.inr rfl) (.inr rfl) .nil)))⟩

/-- Loading at `0x80000000` on an otherwise empty board. -/
def srecStart : Dl Unit := ⟨fun _ => 0, .initial, 0, ()⟩

theorem loadSrec_exact_oneByte :
    Loads boardLayout (fun _ _ _ => none) 0 0x80000000#32
      ⟨[(.data oneByte, true)], endAtZero, .lf []⟩ srecStart := by
  refine (loadSrec_exact boardLayout _ 0 0x80000000#32
    ⟨[(.data oneByte, true)], endAtZero, .lf []⟩ (fun _ => 0) 0 () ?_).mpr ⟨?_, ?_⟩
  · intro r hr
    obtain rfl : r = oneByte := List.mem_singleton.mp hr
    unfold Loadable
    decide
  · intro h
    cases h
  · intro r hr hnone
    obtain rfl : r = oneByte := List.mem_singleton.mp hr
    cases hnone

/-- A record without data below the data pulls `dl_minaddr` down, and an end record whose line is
not ended is a read error. -/
theorem noByte_sets_limits :
    (loadSrec boardLayout (fun _ _ _ => none) 0 0x80000000#32
        (SFile.bytes ⟨[(.data noByte, false), (.data oneByte, false)], endAtZero, .lf []⟩)
        srecStart).2.lim.minaddr = 0x80001000#32 ∧
      (limitsOf 0x80000000#32 ([noByte, oneByte].filter DataRec.loads)).minaddr = 0x80002000#32 ∧
      (loadSrec boardLayout (fun _ _ _ => none) 0 0x80000000#32
        (SFile.bytes ⟨[(.data oneByte, false)], endAtZero, .eof⟩) srecStart).1 =
          .error .readError := by
  refine ⟨?_, ?_, ?_⟩
  · decide
  · decide
  · decide

end Pmon.Loaders
