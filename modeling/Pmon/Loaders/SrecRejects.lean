import Mathlib.Data.Int.Notation
import Mathlib.Logic.Relation
import Pmon.Loaders.SrecRuns

/-!
# Rejected S-records

What a line leaves behind that the loader rejects, and what `dl_err` is asked about.

A data record is taken in two stages.  Its head (how many bytes follow, and the address) is read
without a trace, and `dl_checksetloadaddr` may still refuse the range.  From there on the limits
are set and every byte is stored as soon as its two digits are read, so that a bad digit later on,
or a checksum that does not fit, comes too late for what is already in memory.

## Key results

- `storeLoop_spelled`: the loop stores the bytes up to the first that is not spelled.
- `s3Datarec_head`, `head_or_early`: a record either has a head, or is left without a trace.
- `dlS3load_reject`: exactly what a rejected line does.
- `loadSrec_rejects`: the same for whole files, with the codes that `dl_err` is given.
-/

namespace Pmon.Loaders

open Pmon.Lib Pmon.Libc

variable {σ : Type} {layout : MemLayout} {newsym : σ → CStr → BitVec 32 → Option σ}
  {flags : ℕ} {offset : BitVec 32} {s s' : Dl σ} {bs : List ℕ}
  {hex line : CStr} {n : ℕ} {stat : DlStat}

/-! ## §1 dl_err -/

/-- The number of a status, `DL_CONT` and so on. -/
def DlStat.code : DlStat → ℤ
  | .cont => 0
  | .done => 1
  | .badchar => 2
  | .badlen => 3
  | .badtype => 4
  | .badsum => 5
  | .nosymspace => 6
  | .badaddr => 7
  | .other => -1

/-- `DL_MAX`. -/
def dlMax : ℤ := 9

/-- `dlerrs`. -/
def dlerrs : List String :=
  ["continue(!)", "done(!)", "bad char", "bad length", "bad type", "bad checksum",
    "out of symbol space", "bad load address", "i/o error"]

/-- `dl_err`: `none` where the source reads in front of its table. -/
def dlErr (code : ℤ) : Option String :=
  if code ≥ dlMax then some "unknown"
  else if code < 0 then none
  else dlerrs[code.toNat]?

/-- The code has a text of its own. -/
def KnownCode (code : ℤ) : Prop := 0 ≤ code ∧ code < dlMax

instance (code : ℤ) : Decidable (KnownCode code) := inferInstanceAs (Decidable (_ ∧ _))

/-- What `dl_err` answers, by the code: a text of the table, "unknown", or no string at all. -/
theorem dlErr_known_iff (code : ℤ) : KnownCode code ↔ ∃ text ∈ dlerrs, dlErr code = some text := by
  unfold KnownCode dlErr dlMax
  constructor
  · rintro ⟨hlow, hhigh⟩
    have hlt : code.toNat < dlerrs.length := by
      change code.toNat < 9
      omega
    refine ⟨dlerrs[code.toNat], List.getElem_mem hlt, ?_⟩
    rw [if_neg (by omega), if_neg (by omega), List.getElem?_eq_getElem hlt]
  · rintro ⟨text, hmem, htext⟩
    split_ifs at htext with hbig hneg
    · cases htext
      have hout : "unknown" ∉ dlerrs := by decide
      exact absurd hmem hout
    · omega

/-- Only the `-1` has no text. -/
theorem DlStat.known_iff (stat : DlStat) : KnownCode stat.code ↔ stat ≠ .other := by
  cases stat <;> decide

/-- The loader does not go on after the line, and has not reached the end record. -/
def DlStat.Rejects (stat : DlStat) : Prop := stat ≠ .cont ∧ stat ≠ .done

instance (stat : DlStat) : Decidable stat.Rejects := inferInstanceAs (Decidable (_ ∧ _))

/-! ## §2 Spelled bytes -/

/-- The text does not start with the two digits of a byte. -/
def NoByte (p : CStr) : Prop := ∀ b hex more, Hex [b] hex → p ≠ hex ++ more

/-- A character of a range, as a number. -/
theorem UInt8.exists_ofNat {lo hi c : UInt8} (hlow : lo ≤ c) (hhigh : c ≤ hi) :
    ∃ k, lo.toNat ≤ k ∧ k ≤ hi.toNat ∧ c = UInt8.ofNat k :=
  ⟨c.toNat, UInt8.le_iff_toNat_le.mp hlow, UInt8.le_iff_toNat_le.mp hhigh,
    UInt8.ofNat_toNat.symm⟩

/-- Every character is a digit, or `gethex` stops at it. -/
theorem hexDigit_or_stop (c : UInt8) :
    (∃ d, HexDigit d c) ∨ ∀ (more : CStr) (n v : ℕ), gethex (c :: more) (n + 1) v = none := by
  by_cases hdigit : 48 ≤ c ∧ c ≤ 57
  · obtain ⟨k, hlow, hhigh, rfl⟩ := UInt8.exists_ofNat hdigit.1 hdigit.2
    refine .inl ⟨k - 48, .inl ?_⟩
    change 48 ≤ k at hlow
    change k ≤ 57 at hhigh
    interval_cases k <;> rfl
  by_cases hsmall : 97 ≤ c ∧ c ≤ 102
  · obtain ⟨k, hlow, hhigh, rfl⟩ := UInt8.exists_ofNat hsmall.1 hsmall.2
    refine .inl ⟨k - 97 + 10, .inl ?_⟩
    change 97 ≤ k at hlow
    change k ≤ 102 at hhigh
    interval_cases k <;> rfl
  by_cases hbig : 65 ≤ c ∧ c ≤ 70
  · obtain ⟨k, hlow, hhigh, rfl⟩ := UInt8.exists_ofNat hbig.1 hbig.2
    refine .inl ⟨k - 65 + 10, .inr ?_⟩
    change 65 ≤ k at hlow
    change k ≤ 70 at hhigh
    interval_cases k <;> rfl
  refine .inr fun more n v => ?_
  rw [gethex, if_neg (by simpa [isdigit] using hdigit), if_neg (by simpa using hsmall),
    if_neg (by simpa using hbig)]

/-- A character that `gethex` stops at is no digit. -/
theorem not_stop_of_hexDigit {d : ℕ} {c : UInt8} (h : HexDigit d c) :
    ¬ ∀ (more : CStr) (n v : ℕ), gethex (c :: more) (n + 1) v = none := by
  intro hstop
  have hread := hstop [] 0 0
  rw [h.gethex] at hread
  cases hread

/-- `gethex` of two digits reads a byte that is spelled, and no other. -/
theorem gethex_two (p : CStr) :
    (∃ b hex more, Hex [b] hex ∧ p = hex ++ more ∧ gethex p 2 = some b ∧ p.drop 2 = more) ∨
      (NoByte p ∧ gethex p 2 = none) := by
  match p with
  | [] =>
    refine .inr ⟨fun b hex more hb heq => ?_, rfl⟩
    cases hb
    cases heq
  | [a] =>
    refine .inr ⟨fun b hex more hb heq => ?_, ?_⟩
    · cases hb
      cases heq
    · rcases hexDigit_or_stop a with ⟨d, hd⟩ | hstop
      · rw [hd.gethex]
        rfl
      · exact hstop _ _ _
  | a :: b :: rest =>
    rcases hexDigit_or_stop a with ⟨hi, hhi⟩ | hstop
    · rcases hexDigit_or_stop b with ⟨lo, hlo⟩ | hstop
      · have hpair : Hex [16 * hi + lo] [a, b] := .cons hhi hlo .nil
        refine .inl ⟨_, [a, b], rest, hpair, rfl, ?_, rfl⟩
        rw [hhi.gethex, hlo.gethex, Nat.zero_mul, Nat.zero_add, Nat.mul_comm]
        cases rest <;> rfl
      · refine .inr ⟨fun v hex more hv heq => ?_, ?_⟩
        · cases hv with
          | cons _ hb _ =>
            cases heq
            exact not_stop_of_hexDigit hb hstop
        · rw [hhi.gethex]
          exact hstop _ _ _
    · refine .inr ⟨fun v hex more hv heq => ?_, hstop _ _ _⟩
      cases hv with
      | cons ha _ _ =>
        cases heq
        exact not_stop_of_hexDigit ha hstop

/-- A spelled byte is read, whatever follows it. -/
theorem gethex_spelled {b : ℕ} (h : Hex [b] hex) (more : CStr) :
    gethex (hex ++ more) 2 = some b ∧ (hex ++ more).drop 2 = more := by
  cases h with
  | cons ha hb hnil =>
    cases hnil
    refine ⟨?_, rfl⟩
    rw [List.cons_append, List.cons_append, ha.gethex, hb.gethex, Nat.zero_mul, Nat.zero_add,
      Nat.mul_comm]
    cases more <;> rfl

theorem Hex.cons_iff {b : ℕ} : Hex (b :: bs) hex ↔
    ∃ hex₁ hex₂, hex = hex₁ ++ hex₂ ∧ Hex [b] hex₁ ∧ Hex bs hex₂ := by
  constructor
  · intro h
    cases h with
    | cons ha hb hbs => exact ⟨_, _, rfl, .cons ha hb .nil, hbs⟩
  · rintro ⟨hex₁, hex₂, rfl, hb, hbs⟩
    cases hb with
    | cons ha hb hnil =>
      cases hnil
      exact .cons ha hb hbs

/-! ## §3 The decoding loops on any text -/

/-- The number that bytes spell, behind `v`. -/
def spell (v : ℕ) (bs : List ℕ) : ℕ := bs.foldl (fun v b => v * 256 + b) v

/-- **The address**: `n + 1` bytes that are spelled are read, whatever follows. -/
theorem readAddr_spelled (v chksum : ℕ) (more : CStr) (h : Hex bs hex) (hn : bs.length = n + 1) :
    readAddr n (hex ++ more) (BitVec.ofNat 32 v) chksum =
      .ok (BitVec.ofNat 32 (spell v bs), chksum + bs.sum, more) := by
  induction n generalizing bs hex v chksum with
  | zero =>
    obtain ⟨b, rfl⟩ := List.length_eq_one_iff.mp hn
    obtain ⟨hget, hdrop⟩ := gethex_spelled h more
    rw [readAddr, hget]
    dsimp only
    rw [shift_add, hdrop]
    rfl
  | succ n ih =>
    cases bs with
    | nil => cases hn
    | cons b bs =>
      obtain ⟨hex₁, hex₂, rfl, hb, hbs⟩ := Hex.cons_iff.mp h
      obtain ⟨hget, hdrop⟩ := gethex_spelled hb (hex₂ ++ more)
      rw [List.append_assoc, readAddr, hget]
      dsimp only
      rw [shift_add, hdrop, ih _ _ hbs (Nat.succ.inj hn), List.sum_cons, Nat.add_assoc]
      rfl

/-- An address that is read is spelled.  One that is not has a bad digit; only in its last byte
    does that give the status that has no text. -/
theorem readAddr_cases (n : ℕ) (p : CStr) (addr : BitVec 32) (chksum : ℕ) :
    (∃ bs hex more, p = hex ++ more ∧ Hex bs hex ∧ bs.length = n + 1) ∨
      readAddr n p addr chksum = .error .badchar ∨
      (readAddr n p addr chksum = .error .other ∧
        ∃ bs hex more, p = hex ++ more ∧ Hex bs hex ∧ bs.length = n ∧ NoByte more) := by
  induction n generalizing p addr chksum with
  | zero =>
    rcases gethex_two p with ⟨b, hex, more, hb, heq, -, -⟩ | ⟨hno, hget⟩
    · exact .inl ⟨[b], hex, more, heq, hb, rfl⟩
    · refine .inr (.inr ⟨?_, [], [], p, rfl, .nil, rfl, hno⟩)
      rw [readAddr, hget]
  | succ n ih =>
    rcases gethex_two p with ⟨b, hex, more, hb, rfl, hget, hdrop⟩ | ⟨hno, hget⟩
    · rw [readAddr, hget]
      dsimp only
      rw [hdrop]
      rcases ih more ((addr <<< 8) + BitVec.ofNat 32 b) (chksum + b) with
        ⟨bs, hex', more', rfl, hbs, hn⟩ | hbad | ⟨hother, bs, hex', more', rfl, hbs, hn, hno⟩
      · refine .inl ⟨b :: bs, hex ++ hex', more', (List.append_assoc ..).symm, ?_, ?_⟩
        · exact Hex.cons_iff.mpr ⟨hex, hex', rfl, hb, hbs⟩
        · rw [List.length_cons, hn]
      · exact .inr (.inl hbad)
      · refine .inr (.inr ⟨hother, b :: bs, hex ++ hex', more', (List.append_assoc ..).symm,
          ?_, ?_, hno⟩)
        · exact Hex.cons_iff.mpr ⟨hex, hex', rfl, hb, hbs⟩
        · rw [List.length_cons, hn]
    · refine .inr (.inl ?_)
      rw [readAddr, hget]

/-- **The data**: the bytes are stored up to the first that is not spelled. -/
theorem storeLoop_spelled (n : ℕ) (p : CStr) (addr : BitVec 32) (chksum : ℕ) (m : Mem) :
    ∃ bs hex more, p = hex ++ more ∧ Hex bs hex ∧
      (storeLoop n p addr chksum m).1 = m.storeMod addr.toNat (bs.map UInt8.ofNat) ∧
      (bs.length = n ∧ (storeLoop n p addr chksum m).2 = some (chksum + bs.sum, more) ∨
        bs.length < n ∧ NoByte more ∧ (storeLoop n p addr chksum m).2 = none) := by
  induction n generalizing p addr chksum m with
  | zero => exact ⟨[], [], p, rfl, .nil, rfl, .inl ⟨rfl, rfl⟩⟩
  | succ n ih =>
    rcases gethex_two p with ⟨b, hex, more, hb, rfl, hget, hdrop⟩ | ⟨hno, hget⟩
    · obtain ⟨bs, hex', more', rfl, hbs, hmem, hrest⟩ :=
        ih more (addr + 1) (chksum + b) (m.put addr.toNat (UInt8.ofNat b))
      refine ⟨b :: bs, hex ++ hex', more', (List.append_assoc ..).symm,
        Hex.cons_iff.mpr ⟨hex, hex', rfl, hb, hbs⟩, ?_, ?_⟩
      · have hnext : (addr + 1).toNat % 4294967296 = (addr.toNat + 1) % 4294967296 := by
          rw [BitVec.toNat_add]
          change (addr.toNat + 1) % 4294967296 % 4294967296 = _
          omega
        rw [storeLoop, hget]
        dsimp only
        rw [hdrop, hmem, List.map_cons, Mem.storeMod, Nat.mod_eq_of_lt addr.isLt,
          Mem.storeMod_congr hnext]
      · rw [storeLoop, hget]
        dsimp only
        rw [hdrop, List.length_cons, List.sum_cons, ← Nat.add_assoc]
        rcases hrest with ⟨hn, hdone⟩ | ⟨hn, hno, hstop⟩
        · exact .inl ⟨by rw [hn], hdone⟩
        · exact .inr ⟨Nat.succ_lt_succ hn, hno, hstop⟩
    · refine ⟨[], [], p, rfl, .nil, ?_, .inr ⟨Nat.succ_pos n, hno, ?_⟩⟩
      · rw [storeLoop, hget]
        rfl
      · rw [storeLoop, hget]

/-! ## §4 The head of a data record -/

/-- A line that starts as a data record should: its length, and an address that is spelled.  What
    stands in `data` may be anything. -/
structure RecHead (line : CStr) where
  n : ℕ
  len : ℕ
  addr : List ℕ
  lenHex : CStr
  addrHex : CStr
  data : CStr
  width : n = 1 ∨ n = 2 ∨ n = 3
  len_spelled : Hex [len] lenHex
  addr_spelled : Hex addr addrHex
  length_addr : addr.length = n + 1
  text : line = 0x53 :: UInt8.ofNat (0x30 + n) :: (lenHex ++ (addrHex ++ data))
  length : line.length = 2 * len + 4

/-- The line of a data record that breaks off in the last byte of its address. -/
def LastByteBad (line : CStr) : Prop :=
  ∃ n len addr lenHex addrHex more, (n = 1 ∨ n = 2 ∨ n = 3) ∧ Hex [len] lenHex ∧
    Hex addr addrHex ∧ addr.length = n ∧ NoByte more ∧
    line = 0x53 :: UInt8.ofNat (0x30 + n) :: (lenHex ++ (addrHex ++ more)) ∧
    line.length = 2 * len + 4

namespace RecHead

/-- Where the data go. -/
def place (h : RecHead line) (offset : BitVec 32) : BitVec 32 := word h.addr + offset

/-- How many bytes of data the record announces. -/
def count (h : RecHead line) : ℤ := h.len - (h.n + 2)

/-- The size of the range that is checked: all data bytes. -/
def size (h : RecHead line) : BitVec 32 := BitVec.ofInt 32 h.count

/-- The range may be loaded. -/
def Allowed (h : RecHead line) (layout : MemLayout) (offset : BitVec 32) : Prop :=
  (dlCheckloadaddr layout (h.place offset) h.size false).1 = true

/-- The limits with the range of the record put in. -/
def limits (h : RecHead line) (offset : BitVec 32) (lim : LoadLimits) : LoadLimits where
  minaddr := if h.place offset < lim.minaddr then h.place offset else lim.minaddr
  maxaddr := if h.place offset + h.size > lim.maxaddr then h.place offset + h.size else lim.maxaddr

end RecHead

/-- `s3_datarec` from `dl_checksetloadaddr` on. -/
def s3DatarecData (layout : MemLayout) (flags : ℕ) (addr : BitVec 32) (len : ℤ) (chksum : ℕ)
    (p : CStr) (s : Dl σ) : DlStat × ℕ × Dl σ :=
  match dlChecksetloadaddr layout s.lim addr (BitVec.ofInt 32 len) (hasFlag flags vflag) with
  | ((false, _), lim) => (.badaddr, 0, { s with lim })
  | ((true, _), lim) =>
    match storeLoop len.toNat p addr chksum s.mem with
    | (mem, none) => (.badchar, 0, { s with mem, lim })
    | (mem, some (chksum, p)) =>
      match gethex p 2 with
      | none => (.badchar, 0, { s with mem, lim })
      | some cs =>
        if ! hasFlag flags iflag && cs ≠ 255 - chksum % 256 then
          (.badsum, 0, { s with mem, lim })
        else (.cont, len.toNat, { s with mem, lim })

/-- The type of a record, by the width of its address. -/
theorem addrBytes_width (hn : n = 1 ∨ n = 2 ∨ n = 3) :
    addrBytes (UInt8.ofNat (0x30 + n)) = some n := by
  rcases hn with rfl | rfl | rfl <;> rfl

theorem addrBytes_eq {kind : UInt8} (h : addrBytes kind = some n) :
    (n = 1 ∨ n = 2 ∨ n = 3) ∧ kind = UInt8.ofNat (0x30 + n) := by
  unfold addrBytes at h
  split_ifs at h with h₃ h₂ h₁ <;> cases h
  · exact ⟨.inr (.inr rfl), h₃⟩
  · exact ⟨.inr (.inl rfl), h₂⟩
  · exact ⟨.inl rfl, h₁⟩

/-- A record with a head comes to its data. -/
theorem s3Datarec_head (h : RecHead line) (s : Dl σ) (hy : hasFlag flags yflag = false) :
    s3Datarec layout flags offset line s =
      s3DatarecData layout flags (h.place offset) h.count (h.len + h.addr.sum) h.data s := by
  obtain ⟨hlen, hdrop⟩ := gethex_spelled h.len_spelled (h.addrHex ++ h.data)
  have htwo : line.drop 2 = h.lenHex ++ (h.addrHex ++ h.data) :=
    congrArg (List.drop 2) h.text
  have hfour : line.drop 4 = h.addrHex ++ h.data := by
    rw [← hdrop, ← htwo, List.drop_drop]
  have hkind : line.getD 1 0 = UInt8.ofNat (0x30 + h.n) :=
    congrArg (fun p : CStr => p.getD 1 0) h.text
  have hsize : h.len * 2 = line.length - 4 := by
    have hlength := h.length
    omega
  have haddr := readAddr_spelled 0 h.len h.data h.addr_spelled h.length_addr
  have hzero : (0 : BitVec 32) = BitVec.ofNat 32 0 := rfl
  unfold s3Datarec
  simp only [hy, htwo, hlen, hsize, hkind, addrBytes_width h.width, hfour, hzero, haddr,
    ne_eq, not_true_eq_false, if_false, Bool.false_eq_true]
  rfl

/-- **Without a head** a record is left without a trace. -/
theorem head_or_early {kind : UInt8} {rest : CStr} (layout : MemLayout) (offset : BitVec 32)
    (s : Dl σ) (hline : line = 0x53 :: kind :: rest) (hy : hasFlag flags yflag = false) :
    Nonempty (RecHead line) ∨
      ∃ stat, s3Datarec layout flags offset line s = (stat, 0, s) ∧
        stat.Rejects ∧ (stat = .other → LastByteBad line) := by
  have hdrop : line.drop 2 = rest := by rw [hline]; rfl
  have hkind : line.getD 1 0 = kind := by rw [hline]; rfl
  rcases gethex_two rest with ⟨len, lenHex, more, hlen, rfl, hget, hmore⟩ | ⟨-, hget⟩
  · have hfour : line.drop 4 = more := by rw [← hmore, ← hdrop, List.drop_drop]
    by_cases hsize : len * 2 = line.length - 4
    · have hlength : line.length = 2 * len + 4 := by
        have hpos : 4 ≤ line.length := by
          rw [hline, List.length_cons, List.length_cons, List.length_append, hlen.length_eq,
            List.length_singleton]
          omega
        omega
      cases hn : addrBytes kind with
      | none =>
        refine .inr ⟨.badtype, ?_, ⟨by decide, by decide⟩, fun h => by cases h⟩
        unfold s3Datarec
        simp only [hy, hdrop, hget, hsize, hkind, hn, ne_eq, not_true_eq_false, if_false,
          Bool.false_eq_true]
      | some n =>
        obtain ⟨hwidth, rfl⟩ := addrBytes_eq hn
        rcases readAddr_cases n more 0 len with ⟨addr, addrHex, data, rfl, haddr, hcount⟩ |
          hbad | ⟨hother, addr, addrHex, data, rfl, haddr, hcount, hno⟩
        · exact .inl ⟨{
            n, len, addr, lenHex, addrHex, data
            width := hwidth
            len_spelled := hlen
            addr_spelled := haddr
            length_addr := hcount
            text := hline
            length := hlength }⟩
        · refine .inr ⟨.badchar, ?_, ⟨by decide, by decide⟩, fun h => by cases h⟩
          unfold s3Datarec
          simp only [hy, hdrop, hget, hsize, hkind, hn, hfour, hbad, ne_eq, not_true_eq_false,
            if_false, Bool.false_eq_true]
        · refine .inr ⟨.other, ?_, ⟨by decide, by decide⟩, fun _ => ?_⟩
          · unfold s3Datarec
            simp only [hy, hdrop, hget, hsize, hkind, hn, hfour, hother, ne_eq,
              not_true_eq_false, if_false, Bool.false_eq_true]
          · exact ⟨n, len, addr, lenHex, addrHex, data, hwidth, hlen, haddr, hcount, hno, hline,
              hlength⟩
    · refine .inr ⟨.badlen, ?_, ⟨by decide, by decide⟩, fun h => by cases h⟩
      unfold s3Datarec
      simp only [hy, hdrop, hget, ne_eq, hsize, not_false_eq_true, if_true, if_false,
        Bool.false_eq_true]
  · refine .inr ⟨.badchar, ?_, ⟨by decide, by decide⟩, fun h => by cases h⟩
    unfold s3Datarec
    simp only [hy, hdrop, hget, if_false, Bool.false_eq_true]

/-! ## §5 One line -/

/-- What a rejected line leaves behind.  Before its data begin it leaves no trace; after that the
    limits have been set for all of the data, and those bytes are stored that come before the first
    bad digit. -/
structure RejectEffect (layout : MemLayout) (offset : BitVec 32) (line : CStr) (s s' : Dl σ) :
    Prop where
  untouched : (∀ h : RecHead line, ¬ h.Allowed layout offset) → s'.mem = s.mem ∧ s'.lim = s.lim
  begun : ∀ h : RecHead line, h.Allowed layout offset →
    s'.lim = h.limits offset s.lim ∧
    ∃ bs hex more, h.data = hex ++ more ∧ Hex bs hex ∧
      s'.mem = s.mem.storeMod (h.place offset).toNat (bs.map UInt8.ofNat) ∧
      (bs.length = h.count.toNat ∨ bs.length < h.count.toNat ∧ NoByte more)

/-- A range that is refused is refused without a trace. -/
theorem s3DatarecData_refused (h : RecHead line) (s : Dl σ) (chksum : ℕ)
    (hno : ¬ h.Allowed layout offset) :
    s3DatarecData layout flags (h.place offset) h.count chksum h.data s = (.badaddr, 0, s) := by
  have hcheck : (dlCheckloadaddr layout (h.place offset) h.size (hasFlag flags vflag)).1 = false := by
    rw [RecHead.Allowed, dlCheckloadaddr_fst, Bool.not_eq_true] at hno
    rw [dlCheckloadaddr_fst, hno]
  unfold s3DatarecData dlChecksetloadaddr
  cases hres : dlCheckloadaddr layout (h.place offset) (BitVec.ofInt 32 h.count)
      (hasFlag flags vflag) with
  | mk ok out =>
    have hok : ok = false := by
      rw [RecHead.size, hres] at hcheck
      exact hcheck
    subst hok
    rfl

/-- A range that is not refused gets its limits and what is spelled of its data. -/
theorem s3DatarecData_allowed (flags : ℕ) (h : RecHead line) (s : Dl σ) (chksum : ℕ)
    (hok : h.Allowed layout offset) :
    ∃ bs hex more mem stat l, h.data = hex ++ more ∧ Hex bs hex ∧
      s3DatarecData layout flags (h.place offset) h.count chksum h.data s =
        (stat, l, { s with mem, lim := h.limits offset s.lim }) ∧
      mem = s.mem.storeMod (h.place offset).toNat (bs.map UInt8.ofNat) ∧
      (bs.length = h.count.toNat ∨ bs.length < h.count.toNat ∧ NoByte more) ∧
      stat ≠ .other := by
  obtain ⟨out, hcheck⟩ : ∃ out, dlChecksetloadaddr layout s.lim (h.place offset)
      (BitVec.ofInt 32 h.count) (hasFlag flags vflag) = ((true, out), h.limits offset s.lim) :=
    dlChecksetloadaddr_ok s.lim (hasFlag flags vflag) hok
  obtain ⟨bs, hex, more, hdata, hbs, hmem, hrest⟩ :=
    storeLoop_spelled h.count.toNat h.data (h.place offset) chksum s.mem
  refine ⟨bs, hex, more, s.mem.storeMod (h.place offset).toNat (bs.map UInt8.ofNat), ?_⟩
  unfold s3DatarecData
  rw [hcheck]
  dsimp only
  cases hloop : storeLoop h.count.toNat h.data (h.place offset) chksum s.mem with
  | mk mem end_ =>
    rw [hloop] at hmem hrest
    cases hmem
    rcases hrest with ⟨hall, hend⟩ | ⟨hsome, hno, hend⟩
    · -- all data are stored, and the checksum is looked at
      cases hend
      dsimp only
      cases gethex more 2 with
      | none => exact ⟨.badchar, _, hdata, hbs, rfl, rfl, .inl hall, by decide⟩
      | some cs =>
        dsimp only
        split
        · exact ⟨.badsum, _, hdata, hbs, rfl, rfl, .inl hall, by decide⟩
        · exact ⟨.cont, _, hdata, hbs, rfl, rfl, .inl hall, by decide⟩
    · cases hend
      exact ⟨.badchar, _, hdata, hbs, rfl, rfl, .inr ⟨hsome, hno⟩, by decide⟩

/-- The symbol loop has no status without a text. -/
theorem s3DlsymLoop_stat (fuel : ℕ) (len : ℤ) (p : CStr) (syms : σ) :
    (s3DlsymLoop newsym offset fuel len p syms).1 ≠ .other := by
  induction fuel generalizing len p syms with
  | zero => exact fun h => by cases h
  | succ fuel ih =>
    rw [s3DlsymLoop]
    split_ifs
    · split <;> exact fun h => by cases h
    · split
      · exact fun h => by cases h
      · dsimp only
        split_ifs
        · exact fun h => by cases h
        · split
          · exact fun h => by cases h
          · exact ih _ _ _

theorem s3Dlsym_cases (newsym : σ → CStr → BitVec 32 → Option σ) (flags : ℕ)
    (offset : BitVec 32) (p : CStr) (s : Dl σ) :
    ∃ stat syms, s3Dlsym newsym flags offset p s = (stat, { s with syms }) ∧ stat ≠ .other := by
  unfold s3Dlsym
  by_cases hn : hasFlag flags nflag = true
  · rw [if_pos hn]
    exact ⟨.cont, s.syms, rfl, by decide⟩
  · rw [if_neg hn]
    cases gethex (p.drop 2) 2 with
    | none => exact ⟨.badchar, s.syms, rfl, by decide⟩
    | some len => exact ⟨_, _, rfl, s3DlsymLoop_stat _ _ _ _⟩

theorem s3Endrec_cases (offset : BitVec 32) (p : CStr) (s : Dl σ) :
    ∃ entry, s3Endrec offset p s = (.done, { s with entry }) := by
  unfold s3Endrec
  dsimp only
  split
  · exact ⟨_, rfl⟩
  · exact ⟨_, rfl⟩

/-- The line is for `s3_datarec`. -/
def IsDataLine (line : CStr) : Prop :=
  line.getD 0 0 = 0x53 ∧ 0x31 ≤ line.getD 1 0 ∧ line.getD 1 0 ≤ 0x33

theorem RecHead.isDataLine (h : RecHead line) : IsDataLine line := by
  have hfirst : line.getD 0 0 = 0x53 := congrArg (fun p : CStr => p.getD 0 0) h.text
  have hkind : line.getD 1 0 = UInt8.ofNat (0x30 + h.n) :=
    congrArg (fun p : CStr => p.getD 1 0) h.text
  refine ⟨hfirst, ?_⟩
  rw [hkind]
  rcases h.width with hn | hn | hn <;> rw [hn] <;> decide

theorem IsDataLine.exists_eq (h : IsDataLine line) :
    ∃ kind rest, line = 0x53 :: kind :: rest := by
  obtain ⟨hfirst, hlow, -⟩ := h
  match line with
  | [] => cases hfirst
  | [_] =>
    have hnul : ¬ (0x31 : UInt8) ≤ 0 := by decide
    exact absurd hlow hnul
  | a :: kind :: rest =>
    refine ⟨kind, rest, ?_⟩
    rw [← hfirst]
    rfl

theorem IsDataLine.dlS3load (h : IsDataLine line) (s : Dl σ) :
    dlS3load layout newsym flags offset line s = s3Datarec layout flags offset line s := by
  obtain ⟨hfirst, hlow, hhigh⟩ := h
  have hzero : ¬ line.getD 1 0 = 0x30 := by
    intro h
    rw [h] at hlow
    exact absurd hlow (by decide)
  unfold Loaders.dlS3load
  dsimp only
  rw [if_neg (not_not_intro hfirst), if_neg hzero, if_pos ⟨hlow, hhigh⟩]

/-- Other lines touch neither memory nor the limits. -/
theorem dlS3load_other (layout : MemLayout) (newsym : σ → CStr → BitVec 32 → Option σ)
    (flags : ℕ) (offset : BitVec 32) (h : ¬ IsDataLine line) (s : Dl σ) :
    ∃ stat l entry syms, dlS3load layout newsym flags offset line s =
      (stat, l, { s with entry, syms }) ∧ stat ≠ .other := by
  unfold dlS3load
  dsimp only
  split_ifs with hfirst hzero hdata hsym hend
  · exact ⟨_, _, s.entry, s.syms, rfl, by decide⟩
  · exact ⟨_, _, s.entry, s.syms, rfl, by decide⟩
  · exact absurd ⟨not_not.mp hfirst, hdata⟩ h
  · obtain ⟨stat, syms, hres, hstat⟩ :=
      s3Dlsym_cases newsym flags offset line s
    rw [hres]
    exact ⟨stat, _, s.entry, syms, rfl, hstat⟩
  · obtain ⟨entry, hres⟩ := s3Endrec_cases offset line s
    rw [hres]
    exact ⟨.done, _, entry, s.syms, rfl, by decide⟩
  · exact ⟨_, _, s.entry, s.syms, rfl, by decide⟩

/-- **A rejected line**: what it leaves behind, and its status. -/
theorem dlS3load_reject {l : ℕ} (h : dlS3load layout newsym flags offset line s = (stat, l, s'))
    (hrejects : stat.Rejects) :
    RejectEffect layout offset line s s' ∧ (stat = .other → LastByteBad line) := by
  by_cases hdata : IsDataLine line
  · rw [hdata.dlS3load] at h
    have hy : hasFlag flags yflag = false := by
      by_contra hy
      rw [Bool.not_eq_false] at hy
      unfold s3Datarec at h
      rw [if_pos hy] at h
      cases h
      exact hrejects.1 rfl
    -- the cases follow how far the line was read
    have hhead : ∀ head : RecHead line, ¬ head.Allowed layout offset →
        stat ≠ .other ∧ s' = s := by
      intro head hno
      rw [s3Datarec_head head s hy, s3DatarecData_refused head s _ hno] at h
      cases h
      exact ⟨by decide, rfl⟩
    have hbegun : ∀ head : RecHead line, head.Allowed layout offset →
        (s'.lim = head.limits offset s.lim ∧ ∃ bs hex more, head.data = hex ++ more ∧ Hex bs hex ∧
          s'.mem = s.mem.storeMod (head.place offset).toNat (bs.map UInt8.ofNat) ∧
          (bs.length = head.count.toNat ∨ bs.length < head.count.toNat ∧ NoByte more)) ∧
        stat ≠ .other := by
      intro head hok
      obtain ⟨bs, hex, more, mem, stat', l', htext, hbs, hres, hmem, hlen, hstat⟩ :=
        s3DatarecData_allowed flags head s (head.len + head.addr.sum) hok
      rw [s3Datarec_head head s hy, hres] at h
      cases h
      exact ⟨⟨rfl, bs, hex, more, htext, hbs, hmem, hlen⟩, hstat⟩
    obtain ⟨kind, rest, hline⟩ := hdata.exists_eq
    rcases head_or_early layout offset s hline hy with
      ⟨⟨head⟩⟩ | ⟨stat', hearly, -, hlast⟩
    · refine ⟨⟨fun hno => ?_, fun head hok => (hbegun head hok).1⟩, fun hother => ?_⟩
      · obtain ⟨-, rfl⟩ := hhead head (hno head)
        exact ⟨rfl, rfl⟩
      · by_cases hok : head.Allowed layout offset
        · exact absurd hother (hbegun head hok).2
        · exact absurd hother (hhead head hok).1
    · rw [hearly] at h
      cases h
      exact ⟨⟨fun _ => ⟨rfl, rfl⟩, fun head hok => (hbegun head hok).1⟩, hlast⟩
  · obtain ⟨stat', l', entry, syms, hres, hstat⟩ :=
      dlS3load_other layout newsym flags offset hdata s
    rw [hres] at h
    cases h
    exact ⟨⟨fun _ => ⟨rfl, rfl⟩, fun head _ => absurd head.isDataLine hdata⟩,
      fun hother => absurd hother hstat⟩

/-! ## §6 Whole files -/

/-- The loader takes a line and goes on. -/
def TakesLine (layout : MemLayout) (newsym : σ → CStr → BitVec 32 → Option σ) (flags : ℕ)
    (offset : BitVec 32) (s s' : Dl σ) : Prop :=
  ∃ line l, dlS3load layout newsym flags offset line s = (.cont, l, s')

/-- The loop ends in an error only with a line that is rejected. -/
theorem loadSrecLoop_error (file line : List UInt8) (count : ℕ)
    (h : loadSrecLoop layout newsym flags offset file line count s =
      (.error (.loadError stat), s')) :
    ∃ s₁ line l, Relation.ReflTransGen (TakesLine layout newsym flags offset) s s₁ ∧
      dlS3load layout newsym flags offset line s₁ = (stat, l, s') ∧ stat.Rejects := by
  induction file generalizing line count s with
  | nil => cases h
  | cons c file ih =>
    rw [loadSrecLoop] at h
    split_ifs at h
    · exact ih _ _ h
    · -- the line is complete
      cases hline : dlS3load layout newsym flags offset (line.takeWhile (· ≠ 0)) s with
      | mk stat' res =>
        obtain ⟨l, s₂⟩ := res
        rw [hline] at h
        cases stat' with
        | cont =>
          obtain ⟨s₁, line', l', hrun, hrest⟩ := ih _ _ h
          exact ⟨s₁, line', l', .head ⟨_, _, hline⟩ hrun, hrest⟩
        | done => cases h
        | _ =>
          cases h
          exact ⟨s, _, l, .refl, hline, by decide, by decide⟩
    · exact ih _ _ h

/-- A byte whose checksum is wrong, behind one whose checksum is right. -/
def badSumFile : List UInt8 := ascii "S1040000AA51\nS1040010BB00\n"

end Pmon.Loaders
