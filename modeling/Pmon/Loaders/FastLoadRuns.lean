import Mathlib.Tactic.Ring
import Pmon.Loaders.FastLoad

/-!
# Loads in the fast format, with and without the data

A download is a list of blocks of records, each record written out in characters.  What it means is
told from the records: the bytes it stores, each group behind the one before, and the symbols it
defines.  Loading it for the symbols only leaves a block at its first 24-bit group, so that what
stands behind that group is lost.

## Key results

- `fastRec_text`: a record that is written out is read back.
- `fastLoop_full`, `fastLoop_symbols`: one block, in the two modes.
- `symbolsChecked_iff`: when the symbols that are left are those of the whole download.
- `loadFast_exact`: when the two loads agree and names stay in their buffer.
-/

namespace Pmon.Loaders

open Pmon.Lib Pmon.Libc

/-! ## §1 The format -/

/-- The digits: capital and small letters, decimal digits, `,` and `.`. -/
def b64Digit (d : ℕ) : UInt8 :=
  if d < 26 then UInt8.ofNat (65 + d)
  else if d < 52 then UInt8.ofNat (71 + d)
  else if d < 62 then UInt8.ofNat (d - 4)
  else if d = 62 then 44
  else 46

/-- A number in `n` digits. -/
def b64Text : (n : ℕ) → (v : ℕ) → CStr
  | 0, _ => []
  | n + 1, v => b64Digit (v / 64 ^ n % 64) :: b64Text n v

/-- A record, written out; what fills it up does not matter. -/
inductive RecordText : FastRec → CStr → Prop where
  | klear (x y : UInt8) : RecordText .klear [0x2f, 0x4b, x, y]
  | compare {v : ℕ} (hv : v < 4096) : RecordText (.compare v) ([0x2f, 0x43] ++ b64Text 2 v)
  | zero {v : ℕ} (hv : v < 4096) : RecordText (.zero v) ([0x2f, 0x5a] ++ b64Text 2 v)
  | byte {v : ℕ} (hv : v < 4096) : RecordText (.byte v) ([0x2f, 0x42] ++ b64Text 2 v)
  | addr {v : ℕ} (hv : v < 4294967296) : RecordText (.addr v) ([0x2f, 0x41] ++ b64Text 6 v)
  | end_ (x y : UInt8) : RecordText .end_ [0x2f, 0x45, x, y]
  | symbol {name fill : CStr} (hname : (0x2c : UInt8) ∉ name) (hfill : fill.length < 4)
      (hlen : (name.length + 3 + fill.length) % 4 = 0) :
      RecordText (.symbol name) ([0x2f, 0x53] ++ name ++ 0x2c :: fill)
  | data {v : ℕ} (hv : v < 16777216) : RecordText (.data v) (b64Text 4 v)

/-- A block: its records one behind the other. -/
inductive BlockText : List FastRec → CStr → Prop where
  | nil : BlockText [] []
  | cons {r : FastRec} {rs : List FastRec} {t ts : CStr} (h : RecordText r t)
      (hs : BlockText rs ts) : BlockText (r :: rs) (t ++ ts)

/-- The name of a symbol fits its buffer. -/
def FastRec.Short : FastRec → Prop
  | .symbol name => name.length < linesz
  | _ => True

variable {p rest t : CStr} {r : FastRec} {rs : List FastRec} {n v acc : ℕ}

/-! ## §2 Reading records back -/

theorem etob_b64Digit (h : n < 64) : etob (b64Digit n) = n := by
  have hall : ∀ d : Fin 64, etob (b64Digit d) = d := by decide
  exact hall ⟨n, h⟩

theorem b64Digit_ne_slash (h : n < 64) : b64Digit n ≠ 0x2f := by
  have hall : ∀ d : Fin 64, b64Digit d ≠ 0x2f := by decide
  exact hall ⟨n, h⟩

theorem length_b64Text : (b64Text n v).length = n := by
  induction n with
  | zero => rfl
  | succ n ih => rw [b64Text, List.length_cons, ih]

theorem getb64_b64Text (hacc : acc < 4294967296) :
    getb64 n (b64Text n v ++ p) acc = some ((acc * 64 ^ n + v % 64 ^ n) % 4294967296) := by
  induction n generalizing acc with
  | zero =>
    rw [getb64, Nat.pow_zero, Nat.mul_one, Nat.mod_one, Nat.add_zero, Nat.mod_eq_of_lt hacc]
  | succ n ih =>
    have hdigit : v / 64 ^ n % 64 < 64 := Nat.mod_lt _ (by decide)
    rw [b64Text, getb64, List.cons_append, List.headD_cons, List.tail_cons, etob_b64Digit hdigit,
      if_neg (by omega), ih (Nat.mod_lt _ (by decide)), Nat.mod_pow_succ, Nat.pow_succ]
    congr 1
    rw [Nat.add_mod, Nat.mod_mul_mod, ← Nat.add_mod]
    congr 1
    ring

/-- A number with few enough digits is read back. -/
theorem getb64_text (hn : v < 64 ^ n) (hv : v < 4294967296) :
    getb64 n (b64Text n v ++ p) 0 = some v := by
  rw [getb64_b64Text (by decide), Nat.zero_mul, Nat.zero_add, Nat.mod_eq_of_lt hn,
    Nat.mod_eq_of_lt hv]

/-- The name of a symbol, from place `i` of a record on. -/
theorem nameLoop_text {name fill got : CStr} {i : ℕ} (hname : (0x2c : UInt8) ∉ name) (hi : i < 4)
    (hfill : fill.length < 4) (hlen : (i + name.length + 1 + fill.length) % 4 = 0) :
    nameLoop i (name ++ 0x2c :: (fill ++ rest)) got = some (got ++ name, rest) := by
  induction name generalizing i got with
  | nil =>
    rw [List.length_nil] at hlen
    rw [List.nil_append, nameLoop, if_pos rfl, List.append_nil, show 3 - i = fill.length by omega,
      List.drop_left]
  | cons c name ih =>
    rw [List.mem_cons, not_or] at hname
    rw [List.length_cons] at hlen
    rw [List.cons_append, nameLoop, if_neg (Ne.symm hname.1)]
    split
    · rw [ih hname.2 (by decide) (by omega), List.append_assoc]
      rfl
    · rw [ih hname.2 (by omega) (by omega), List.append_assoc]
      rfl

/-- A number of two digits behind the two characters of a record. -/
theorem getb64_two (c : UInt8) (hv : v < 4096) :
    getb64 2 (([0x2f, c] ++ b64Text 2 v ++ rest).drop 2) 0 = some v := by
  rw [List.append_assoc]
  exact getb64_text (by omega) (by omega)

theorem drop_two (c : UInt8) : ([0x2f, c] ++ b64Text 2 v ++ rest).drop 4 = rest := by
  rw [List.append_assoc]
  exact List.drop_left' (length_b64Text (n := 2) (v := v))

/-- A record of two characters and two digits. -/
theorem fastRec_two (c : UInt8) (make : ℕ → FastRec) (hv : v < 4096)
    (hrec : fastRec ([0x2f, c] ++ b64Text 2 v ++ rest) =
      match getb64 2 (([0x2f, c] ++ b64Text 2 v ++ rest).drop 2) 0 with
      | none => .error (some .badchar)
      | some w => .ok (make w, ([0x2f, c] ++ b64Text 2 v ++ rest).drop 4)) :
    fastRec ([0x2f, c] ++ b64Text 2 v ++ rest) = .ok (make v, rest) := by
  rw [hrec, getb64_two c hv]
  dsimp only
  rw [drop_two]

theorem fastRec_addr (bs : CStr) : fastRec (0x2f :: 0x41 :: bs) =
    if (0x2f :: 0x41 :: bs).length ≤ 4 then .error (some .badlen)
    else
      match getb64 6 bs 0 with
      | none => .error (some .badchar)
      | some w => .ok (.addr w, (0x2f :: 0x41 :: bs).drop 8) := rfl

theorem fastRec_symbol (bs : CStr) : fastRec (0x2f :: 0x53 :: bs) =
    match nameLoop 2 bs [] with
    | none => .error (if linesz < bs.length then none else some .badlen)
    | some (name, rest) =>
      if linesz ≤ name.length then .error none else .ok (.symbol name, rest) := rfl

/-- **A record is read back**, unless it has a name that is too long. -/
theorem fastRec_text (h : RecordText r t) :
    (r.Short → fastRec (t ++ rest) = .ok (r, rest)) ∧
      (¬ r.Short → fastRec (t ++ rest) = .error none) := by
  cases h with
  | klear x y => exact ⟨fun _ => rfl, fun hlong => absurd trivial hlong⟩
  | @compare v hv =>
    exact ⟨fun _ => fastRec_two 0x43 .compare hv rfl, fun hlong => absurd trivial hlong⟩
  | @zero v hv =>
    exact ⟨fun _ => fastRec_two 0x5a .zero hv rfl, fun hlong => absurd trivial hlong⟩
  | @byte v hv =>
    exact ⟨fun _ => fastRec_two 0x42 .byte hv rfl, fun hlong => absurd trivial hlong⟩
  | @addr v hv =>
    refine ⟨fun _ => ?_, fun hlong => absurd trivial hlong⟩
    have hlen : ¬ (0x2f :: 0x41 :: (b64Text 6 v ++ rest)).length ≤ 4 := by
      simp only [List.length_append, List.length_cons, length_b64Text]
      omega
    have hread : getb64 6 (b64Text 6 v ++ rest) 0 = some v := getb64_text (by omega) hv
    have hdrop : (0x2f :: 0x41 :: (b64Text 6 v ++ rest)).drop 8 = rest :=
      List.drop_left' (length_b64Text (n := 6) (v := v))
    have htext : [0x2f, 0x41] ++ b64Text 6 v ++ rest = 0x2f :: 0x41 :: (b64Text 6 v ++ rest) := rfl
    rw [htext, fastRec_addr, if_neg hlen, hread]
    dsimp only
    rw [hdrop]
  | end_ x y => exact ⟨fun _ => rfl, fun hlong => absurd trivial hlong⟩
  | @symbol name fill hname hfill hlen =>
    have hloop : nameLoop 2 (name ++ 0x2c :: (fill ++ rest)) [] = some (name, rest) :=
      nameLoop_text hname (by decide) hfill (by omega)
    have hrec : fastRec ([0x2f, 0x53] ++ name ++ 0x2c :: fill ++ rest) =
        if linesz ≤ name.length then .error none else .ok (.symbol name, rest) := by
      have htext : [0x2f, 0x53] ++ name ++ 0x2c :: fill ++ rest =
          0x2f :: 0x53 :: (name ++ 0x2c :: (fill ++ rest)) := by simp
      rw [htext, fastRec_symbol, hloop]
    rw [hrec]
    exact ⟨fun hshort => if_neg (Nat.not_le.mpr hshort), fun hlong => if_pos (Nat.not_lt.mp hlong)⟩
  | @data v hv =>
    refine ⟨fun _ => ?_, fun hlong => absurd trivial hlong⟩
    have hhead : (b64Text 4 v ++ rest).headD 0 ≠ 0x2f :=
      b64Digit_ne_slash (Nat.mod_lt _ (by decide))
    rw [fastRec, if_neg hhead, getb64_text (by omega) (by omega)]
    dsimp only
    rw [List.drop_left' (length_b64Text (n := 4) (v := v))]

/-! ## §3 What a download means -/

/-- The bytes of a record. -/
def FastRec.bytes : FastRec → List UInt8
  | .zero v => List.replicate (v * 3) 0
  | .byte v => [UInt8.ofNat v]
  | .data v => dataBytes v
  | _ => []

/-- A record that goes to memory. -/
def FastRec.Stores : FastRec → Prop
  | .zero _ => True
  | .byte _ => True
  | .data _ => True
  | _ => False

/-- The address behind a record. -/
def FastRec.move (offset : BitVec 32) : FastRec → BitVec 32 → BitVec 32
  | .addr v, _ => BitVec.ofNat 32 v + offset
  | r, a => a + BitVec.ofNat 32 r.bytes.length

/-- The checksum behind a record. -/
def FastRec.sum : FastRec → ℕ → ℕ
  | .klear, _ => 0
  | .compare _, _ => 0
  | r, n => r.addSum n

/-- A checksum that is wrong and not ignored. -/
def FastRec.fails (ignore : Bool) : FastRec → ℕ → Bool
  | .compare v, n => ! ignore && v ≠ n % 4096
  | _, _ => false

/-- The symbol of a record at its address. -/
def FastRec.symsAt (nosyms : Bool) : FastRec → BitVec 32 → List (CStr × BitVec 32)
  | .symbol name, a => if nosyms then [] else [(name, a)]
  | _, _ => []

/-- Where a download has got to: the address, the checksum, the memory, the symbols. -/
structure Meaning where
  addr : BitVec 32
  sum : ℕ
  mem : Mem
  syms : List (CStr × BitVec 32)

variable (offset : BitVec 32) (nosyms ignore : Bool) (layout : MemLayout) (flags : ℕ)

/-- A record stores its bytes, and moves the address behind them; or it defines a symbol. -/
def Meaning.step (x : Meaning) (r : FastRec) : Meaning where
  addr := r.move offset x.addr
  sum := r.sum x.sum
  mem := x.mem.storeMod x.addr.toNat r.bytes
  syms := x.syms ++ r.symsAt nosyms x.addr

def Meaning.run (x : Meaning) (rs : List FastRec) : Meaning :=
  rs.foldl (Meaning.step offset nosyms) x

/-- The checksums are right, and the bytes go where they may. -/
def Meaning.Loads : Meaning → List FastRec → Prop
  | _, [] => True
  | x, r :: rs =>
    r.fails ignore x.sum = false ∧
      (r.Stores →
        mdValidLoadAddr layout x.addr (x.addr + BitVec.ofNat 32 r.bytes.length) = false) ∧
      Meaning.Loads (x.step offset nosyms r) rs

/-- A run up to a checksum that is wrong: how far it gets, and whether that is to the end. -/
def Meaning.check : Meaning → List FastRec → Meaning × Bool
  | x, [] => (x, true)
  | x, r :: rs =>
    if r.fails ignore x.sum then (x, false) else Meaning.check (x.step offset nosyms r) rs

/-- The records of a block up to the first 24-bit group. -/
def keep : List FastRec → List FastRec
  | [] => []
  | .data v :: _ => [.data v]
  | r :: rs => r :: keep rs

variable {offset nosyms ignore layout flags}

theorem Meaning.loads_append {x : Meaning} {rs' : List FastRec} :
    x.Loads offset nosyms ignore layout (rs ++ rs') ↔
      x.Loads offset nosyms ignore layout rs ∧
        (x.run offset nosyms rs).Loads offset nosyms ignore layout rs' := by
  induction rs generalizing x with
  | nil => exact (and_iff_right trivial).symm
  | cons r rs ih =>
    rw [List.cons_append, Meaning.Loads, Meaning.Loads, ih, and_assoc, and_assoc]
    rfl

theorem Meaning.check_append {x : Meaning} {rs' : List FastRec} :
    x.check offset nosyms ignore (rs ++ rs') =
      if (x.check offset nosyms ignore rs).2 then
        (x.check offset nosyms ignore rs).1.check offset nosyms ignore rs'
      else x.check offset nosyms ignore rs := by
  induction rs generalizing x with
  | nil => rfl
  | cons r rs ih =>
    rw [List.cons_append, Meaning.check, Meaning.check]
    split
    · rfl
    · exact ih

/-! ## §4 One record in the two modes -/

/-- A symbol table with room for everything: the symbols as they are defined. -/
def logSym (syms : List (CStr × BitVec 32)) (name : CStr) (value : BitVec 32) :
    Option (List (CStr × BitVec 32)) :=
  some (syms ++ [(name, value)])

abbrev LogLoad := FastLoad (List (CStr × BitVec 32))

/-- The loader is where the download is. -/
structure At (s : LogLoad) (x : Meaning) : Prop where
  addr_eq : s.nextaddr = x.addr
  sum_eq : s.chksum = x.sum
  syms_eq : s.dl.syms = x.syms

variable {s : LogLoad} {x : Meaning} {fuel len : ℕ} {stat : DlStat}

/-- Bytes that go where they may are stored. -/
theorem load_allowed (flags : ℕ) {bytes : List UInt8}
    (h : mdValidLoadAddr layout s.nextaddr
      (s.nextaddr + BitVec.ofNat 32 bytes.length) = false) :
    ∃ lim, s.load layout flags bytes =
      .next
        { s with
          dl := { s.dl with lim, mem := s.dl.mem.storeMod s.nextaddr.toNat bytes }
          nextaddr := s.nextaddr + BitVec.ofNat 32 bytes.length }
        bytes.length := by
  have hok := dlChecksetloadaddr_fst layout s.dl.lim s.nextaddr (BitVec.ofNat 32 bytes.length)
    (hasFlag flags vflag)
  have hfst := dlCheckloadaddr_fst layout s.nextaddr (BitVec.ofNat 32 bytes.length)
    (hasFlag flags vflag)
  rw [h] at hfst
  rw [FastLoad.load]
  generalize dlChecksetloadaddr layout s.dl.lim s.nextaddr (BitVec.ofNat 32 bytes.length)
    (hasFlag flags vflag) = answer at hok ⊢
  obtain ⟨⟨ok, out⟩, lim⟩ := answer
  rw [← hok] at hfst
  obtain rfl : ok = true := hfst
  exact ⟨lim, rfl⟩

/-- A record without bytes leaves the address. -/
theorem move_silent {a : BitVec 32} (hbytes : r.bytes = []) (haddr : ∀ v, r ≠ .addr v) :
    r.move offset a = a := by
  have hmove : r.move offset a = a + BitVec.ofNat 32 r.bytes.length := by
    cases r with
    | addr v => exact absurd rfl (haddr v)
    | _ => rfl
  rw [hmove, hbytes]
  exact BitVec.add_zero a

theorem step_addr (ha : s.nextaddr = x.addr) (hbytes : r.bytes = []) (haddr : ∀ v, r ≠ .addr v) :
    s.nextaddr = (x.step offset nosyms r).addr := by
  rw [ha, Meaning.step, move_silent hbytes haddr]

/-- **A record that is loaded**: it does what it means. -/
theorem execRec_full (hy : hasFlag flags yflag = false) (h : At s x) (hmem : s.dl.mem = x.mem)
    (hfails : r.fails (hasFlag flags iflag) x.sum = false)
    (hallowed : r.Stores →
      mdValidLoadAddr layout x.addr (x.addr + BitVec.ofNat 32 r.bytes.length) = false) :
    ∃ s' n, execRec logSym layout offset flags r s = .next s' n ∧
      At s' (x.step offset (hasFlag flags nflag) r) ∧
      s'.dl.mem = (x.step offset (hasFlag flags nflag) r).mem := by
  obtain ⟨ha, hn, hsyms⟩ := h
  have hkeep : s.dl.syms = x.syms ++ [] := by rw [hsyms, List.append_nil]
  -- the state that the stores start from
  have hstore : ∀ bytes : List UInt8, r.bytes = bytes → r.Stores → r.sum x.sum = r.addSum s.chksum →
      (∀ a, r.symsAt (hasFlag flags nflag) a = []) →
      r.move offset x.addr = x.addr + BitVec.ofNat 32 bytes.length →
      ∃ s' n, FastLoad.load layout flags { s with chksum := r.addSum s.chksum } bytes = .next s' n ∧
        At s' (x.step offset (hasFlag flags nflag) r) ∧
        s'.dl.mem = (x.step offset (hasFlag flags nflag) r).mem := by
    rintro bytes rfl hstores hsum hnone hmove
    have hok := hallowed hstores
    rw [← ha] at hok
    obtain ⟨lim, hload⟩ := load_allowed (s := { s with chksum := r.addSum s.chksum })
      flags hok
    refine ⟨_, _, hload, ⟨?_, hsum.symm, ?_⟩, ?_⟩
    · rw [Meaning.step, hmove, ha]
    · rw [Meaning.step, hnone, List.append_nil, hsyms]
    · rw [Meaning.step, ← ha, ← hmem]
  cases r with
  | klear => exact ⟨_, 0, rfl, ⟨step_addr ha rfl nofun, rfl, hkeep⟩, hmem⟩
  | compare v =>
    have hright : ¬ (! hasFlag flags iflag && decide (v ≠ s.chksum % 4096)) = true := by
      rw [hn, Bool.not_eq_true]
      exact hfails
    exact ⟨_, 0, if_neg hright, ⟨step_addr ha rfl nofun, rfl, hkeep⟩, hmem⟩
  | zero v =>
    obtain ⟨s', n, hload, hat⟩ := hstore _ rfl trivial (by rw [hn]; rfl) (fun _ => rfl) rfl
    exact ⟨s', n, (if_neg (by rw [hy]; exact Bool.false_ne_true)).trans hload, hat⟩
  | byte v =>
    obtain ⟨s', n, hload, hat⟩ := hstore _ rfl trivial (by rw [hn]; rfl) (fun _ => rfl) rfl
    exact ⟨s', n, (if_neg (by rw [hy]; exact Bool.false_ne_true)).trans hload, hat⟩
  | addr v =>
    exact ⟨_, 0, rfl, ⟨rfl, by rw [hn]; rfl, hkeep⟩, hmem⟩
  | end_ =>
    exact ⟨_, 0, rfl, ⟨step_addr ha rfl nofun, by rw [hn]; rfl, hkeep⟩, hmem⟩
  | symbol name =>
    cases hnone : hasFlag flags nflag with
    | true =>
      exact ⟨_, 0, if_pos hnone, ⟨step_addr ha rfl nofun, by rw [hn]; rfl,
        hkeep⟩, hmem⟩
    | false =>
      exact ⟨_, 0, if_neg (by rw [hnone]; exact Bool.false_ne_true),
        ⟨step_addr ha rfl nofun, by rw [hn]; rfl, by
          rw [Meaning.step, ← hsyms, ← ha]; rfl⟩, hmem⟩
  | data v =>
    obtain ⟨s', n, hload, hat⟩ := hstore _ rfl trivial (by rw [hn]; rfl) (fun _ => rfl) rfl
    exact ⟨s', n, (if_neg (by rw [hy]; exact Bool.false_ne_true)).trans hload, hat⟩

/-- What a record does when only symbols are loaded. -/
inductive SymStep (flags : ℕ) (offset : BitVec 32) (x : Meaning) (r : FastRec) :
    FastStep (List (CStr × BitVec 32)) → Prop where
  | next {s' : LogLoad} {n : ℕ} (hfails : r.fails (hasFlag flags iflag) x.sum = false)
      (hdata : ∀ v, r ≠ .data v) (h : At s' (x.step offset (hasFlag flags nflag) r)) :
      SymStep flags offset x r (.next s' n)
  | leave {s' : LogLoad} {v : ℕ} (hdata : r = .data v)
      (h : At s' (x.step offset (hasFlag flags nflag) r)) : SymStep flags offset x r (.leave s')
  | stop {s' : LogLoad} (hfails : r.fails (hasFlag flags iflag) x.sum = true)
      (hsyms : s'.dl.syms = x.syms) : SymStep flags offset x r (.stop .badsum s')

/-- **A record that is gone over** for its symbol: only a 24-bit group ends the loop. -/
theorem execRec_symbols (hy : hasFlag flags yflag = true) (h : At s x) :
    SymStep flags offset x r (execRec logSym layout offset flags r s) := by
  obtain ⟨ha, hn, hsyms⟩ := h
  have hkeep : s.dl.syms = x.syms ++ [] := by rw [hsyms, List.append_nil]
  cases r with
  | klear =>
    exact .next rfl nofun ⟨step_addr ha rfl nofun, rfl, hkeep⟩
  | compare v =>
    cases hfails : (FastRec.compare v).fails (hasFlag flags iflag) x.sum with
    | true =>
      have hwrong : (! hasFlag flags iflag && decide (v ≠ s.chksum % 4096)) = true := by
        rw [hn]
        exact hfails
      have hexec : execRec logSym layout offset flags (.compare v) s =
          .stop .badsum { s with chksum := s.chksum % 4096 } := if_pos hwrong
      rw [hexec]
      exact .stop hfails hsyms
    | false =>
      have hright : ¬ (! hasFlag flags iflag && decide (v ≠ s.chksum % 4096)) = true := by
        rw [hn, Bool.not_eq_true]
        exact hfails
      have hexec : execRec logSym layout offset flags (.compare v) s =
          .next { s with chksum := 0 } 0 := if_neg hright
      rw [hexec]
      exact .next hfails nofun
        ⟨step_addr ha rfl nofun, rfl, hkeep⟩
  | zero v =>
    have hexec : execRec logSym layout offset flags (.zero v) s =
        .next (FastLoad.skip { s with chksum := s.chksum + v % 4096 } (v * 3)) 0 := if_pos hy
    rw [hexec]
    refine .next rfl nofun ⟨?_, by rw [FastLoad.skip, hn]; rfl, hkeep⟩
    rw [FastLoad.skip, ha, Meaning.step, FastRec.move, FastRec.bytes, List.length_replicate]
    nofun
  | byte v =>
    have hexec : execRec logSym layout offset flags (.byte v) s =
        .next (FastLoad.skip { s with chksum := s.chksum + v % 4096 } 1) 0 := if_pos hy
    rw [hexec]
    exact .next rfl nofun ⟨by rw [FastLoad.skip, ha]; rfl, by rw [FastLoad.skip, hn]; rfl, hkeep⟩
  | addr v => exact .next rfl nofun ⟨rfl, by rw [hn]; rfl, hkeep⟩
  | end_ =>
    exact .next rfl nofun
      ⟨step_addr ha rfl nofun, by rw [hn]; rfl, hkeep⟩
  | symbol name =>
    cases hnone : hasFlag flags nflag with
    | true =>
      have hexec : execRec logSym layout offset flags (.symbol name) s = .next s 0 := if_pos hnone
      rw [hexec]
      refine .next rfl nofun ⟨step_addr ha rfl nofun,
        hn, ?_⟩
      rw [Meaning.step, hnone]
      exact hkeep
    | false =>
      have hexec : execRec logSym layout offset flags (.symbol name) s =
          .next { s with dl := { s.dl with syms := s.dl.syms ++ [(name, s.nextaddr)] } } 0 :=
        if_neg (by rw [hnone]; exact Bool.false_ne_true)
      rw [hexec]
      refine .next rfl nofun ⟨step_addr ha rfl nofun,
        hn, ?_⟩
      rw [Meaning.step, hnone, hsyms, ha]
      rfl
  | data v =>
    have hexec : execRec logSym layout offset flags (.data v) s =
        .leave (FastLoad.skip { s with chksum := s.chksum + v / 4096 % 4096 + v % 4096 } 3) :=
      if_pos hy
    rw [hexec]
    exact .leave rfl ⟨by rw [FastLoad.skip, ha]; rfl, by rw [FastLoad.skip, hn]; rfl, hkeep⟩

/-! ## §5 One block in the two modes -/

theorem RecordText.ne_nil (h : RecordText r t) : t ≠ [] := by
  cases h with
  | data hv => exact List.cons_ne_nil _ _
  | _ => exact List.cons_ne_nil _ _

/-- The status behind a record, and behind those that follow. -/
theorem stat_cons (stat : DlStat) :
    (if FastRec.end_ ∈ rs then .done else if r = .end_ then .done else stat) =
      if FastRec.end_ ∈ r :: rs then DlStat.done else stat := by
  by_cases hr : r = .end_
  · subst hr
    simp
  · simp [hr, Ne.symm hr]

/-- **A block that is loaded**: every record does what it means, as long as the names fit. -/
theorem fastLoop_full (stat : DlStat) (len : ℕ) (hy : hasFlag flags yflag = false)
    (ht : BlockText rs t) (h : At s x)
    (hmem : s.dl.mem = x.mem)
    (hloads : x.Loads offset (hasFlag flags nflag) (hasFlag flags iflag) layout rs)
    (hfuel : rs.length ≤ fuel) :
    ((∀ r ∈ rs, r.Short) →
      ∃ s' len', fastLoop logSym layout offset flags fuel t stat len s =
          some (if FastRec.end_ ∈ rs then .done else stat, len', s') ∧
        At s' (x.run offset (hasFlag flags nflag) rs) ∧
        s'.dl.mem = (x.run offset (hasFlag flags nflag) rs).mem) ∧
    (¬ (∀ r ∈ rs, r.Short) → fastLoop logSym layout offset flags fuel t stat len s = none) := by
  induction ht generalizing fuel stat len s x with
  | nil =>
    refine ⟨fun _ => ⟨s, len, ?_, h, hmem⟩, fun hlong => absurd (fun r hr => by cases hr) hlong⟩
    cases fuel <;> rfl
  | @cons r rs t ts hr hs ih =>
    obtain ⟨fuel, rfl⟩ : ∃ k, fuel = k + 1 := ⟨fuel - 1, by rw [List.length_cons] at hfuel; omega⟩
    obtain ⟨hfails, hallowed, hloads⟩ := hloads
    obtain ⟨s', n, hexec, hat, hmem'⟩ := execRec_full hy h hmem hfails hallowed
    have hne : t ++ ts ≠ [] := fun hnil => hr.ne_nil (List.append_eq_nil_iff.mp hnil).1
    have hfuel' : rs.length ≤ fuel := by
      rw [List.length_cons] at hfuel
      omega
    by_cases hshort : r.Short
    · have hloop : fastLoop logSym layout offset flags (fuel + 1) (t ++ ts) stat len s =
          fastLoop logSym layout offset flags fuel ts (if r = .end_ then .done else stat) (len + n)
            s' := by
        rw [fastLoop, if_neg hne, (fastRec_text hr).1 hshort]
        dsimp only
        rw [hexec]
      obtain ⟨hfits, hover⟩ := ih (if r = .end_ then .done else stat) (len + n) hat hmem' hloads
        hfuel'
      rw [hloop]
      refine ⟨fun hall => ?_, fun hlong => hover fun hall => hlong ?_⟩
      · obtain ⟨s'', len', hrun, hat', hmem''⟩ :=
          hfits fun r hr => hall r (List.mem_cons_of_mem _ hr)
        exact ⟨s'', len', by rw [hrun, stat_cons], hat', hmem''⟩
      · rintro q hq
        rcases List.mem_cons.mp hq with rfl | hq
        · exact hshort
        · exact hall q hq
    · have hloop : fastLoop logSym layout offset flags (fuel + 1) (t ++ ts) stat len s = none := by
        rw [fastLoop, if_neg hne, (fastRec_text hr).2 hshort]
      exact ⟨fun hall => absurd (hall r List.mem_cons_self) hshort, fun _ => hloop⟩

theorem keep_cons (hdata : ∀ v, r ≠ .data v) : keep (r :: rs) = r :: keep rs := by
  cases r with
  | data v => exact absurd rfl (hdata v)
  | _ => rfl

/-- **A block that is gone over**: its records up to the first 24-bit group, and no further than a
    checksum that is wrong then. -/
theorem fastLoop_symbols (layout : MemLayout) (offset : BitVec 32) (stat : DlStat) (len : ℕ)
    (hy : hasFlag flags yflag = true) (ht : BlockText rs t) (h : At s x)
    (hshort : ∀ r ∈ rs, r.Short) (hfuel : rs.length ≤ fuel) :
    ∃ stat' len' s', fastLoop logSym layout offset flags fuel t stat len s =
        some (stat', len', s') ∧
      if (x.check offset (hasFlag flags nflag) (hasFlag flags iflag) (keep rs)).2 then
        stat' = (if FastRec.end_ ∈ keep rs then .done else stat) ∧
          At s' (x.check offset (hasFlag flags nflag) (hasFlag flags iflag) (keep rs)).1
      else stat' = .badsum ∧ s'.dl.syms =
        (x.check offset (hasFlag flags nflag) (hasFlag flags iflag) (keep rs)).1.syms := by
  induction ht generalizing fuel stat len s x with
  | nil =>
    refine ⟨stat, len, s, by cases fuel <;> rfl, ?_⟩
    exact ⟨rfl, h⟩
  | @cons r rs t ts hr hs ih =>
    obtain ⟨fuel, rfl⟩ : ∃ k, fuel = k + 1 := ⟨fuel - 1, by rw [List.length_cons] at hfuel; omega⟩
    have hne : t ++ ts ≠ [] := fun hnil => hr.ne_nil (List.append_eq_nil_iff.mp hnil).1
    have hfuel' : rs.length ≤ fuel := by
      rw [List.length_cons] at hfuel
      omega
    rw [fastLoop, if_neg hne, (fastRec_text hr).1 (hshort r List.mem_cons_self)]
    dsimp only
    have hstep : SymStep flags offset x r (execRec logSym layout offset flags r s) :=
      execRec_symbols hy h
    generalize execRec logSym layout offset flags r s = step at hstep ⊢
    cases hstep with
    | @next s' n hfails hdata hat =>
      obtain ⟨stat', len', s'', hrun, hcheck⟩ := ih (if r = .end_ then .done else stat) (len + n)
        hat (fun q hq => hshort q (List.mem_cons_of_mem _ hq)) hfuel'
      refine ⟨stat', len', s'', hrun, ?_⟩
      have hgoes : x.check offset (hasFlag flags nflag) (hasFlag flags iflag) (r :: keep rs) =
          (x.step offset (hasFlag flags nflag) r).check offset (hasFlag flags nflag)
            (hasFlag flags iflag) (keep rs) := by
        rw [Meaning.check, hfails]
        exact if_neg Bool.false_ne_true
      rw [stat_cons] at hcheck
      rw [keep_cons hdata, hgoes]
      exact hcheck
    | @leave s' v hdata hat =>
      subst hdata
      exact ⟨stat, len, s', rfl, (if_neg (by simp [keep])).symm, hat⟩
    | @stop s' hfails hsyms =>
      refine ⟨.badsum, 0, s', rfl, ?_⟩
      have hdata : ∀ v, r ≠ .data v := by
        rintro v rfl
        cases hfails
      rw [keep_cons hdata, Meaning.check, if_pos hfails]
      exact ⟨rfl, hsyms⟩

/-! ## §6 Whole downloads -/

/-- A download: its blocks, written out.  Only the last one has the end record, the checksums are
    right, and the bytes go where they may. -/
structure FastImage (layout : MemLayout) (offset : BitVec 32) (flags : ℕ) (start : Meaning) where
  blocks : List (List FastRec)
  texts : List CStr
  encodes : List.Forall₂ BlockText blocks texts
  end_last : ∀ block ∈ blocks.dropLast, FastRec.end_ ∉ block
  loads : start.Loads offset (hasFlag flags nflag) (hasFlag flags iflag) layout blocks.flatten

theorem recordText_length (h : RecordText r t) : t.length % 4 = 0 ∧ 0 < t.length := by
  cases h with
  | @symbol name fill hname hfill hlen =>
    simp only [List.length_append, List.length_cons, List.length_nil]
    omega
  | _ => exact ⟨by simp [length_b64Text], by simp [length_b64Text]⟩

theorem blockText_length (h : BlockText rs t) : t.length % 4 = 0 ∧ rs.length ≤ t.length := by
  induction h with
  | nil => exact ⟨rfl, Nat.le_refl _⟩
  | cons hr _ ih =>
    have hrec := recordText_length hr
    rw [List.length_append, List.length_cons]
    omega

theorem dlFastload_eq (ht : BlockText rs t) : dlFastload logSym layout offset flags t s =
    fastLoop logSym layout offset flags t.length t .cont 0 s :=
  if_neg (not_not.mpr (blockText_length ht).1)

theorem run_append {rs' : List FastRec} :
    x.run offset nosyms (rs ++ rs') = (x.run offset nosyms rs).run offset nosyms rs' :=
  List.foldl_append

variable {blocks : List (List FastRec)} {texts : List CStr}

/-- Behind the block with the end record there is none. -/
theorem endLast_cons {block : List FastRec}
    (hend : ∀ b ∈ (block :: blocks).dropLast, FastRec.end_ ∉ b) :
    (FastRec.end_ ∈ block → blocks = []) ∧ ∀ b ∈ blocks.dropLast, FastRec.end_ ∉ b := by
  cases blocks with
  | nil => exact ⟨fun _ => rfl, fun b hb => by cases hb⟩
  | cons b' blocks =>
    exact ⟨fun hlast => absurd hlast (hend block List.mem_cons_self),
      fun b hb => hend b (List.mem_cons_of_mem _ hb)⟩

theorem mem_keep (h : r ∈ keep rs) : r ∈ rs := by
  induction rs with
  | nil => cases h
  | cons q rs ih =>
    by_cases hdata : ∃ v, q = .data v
    · obtain ⟨v, rfl⟩ := hdata
      exact List.mem_singleton.mp h ▸ List.mem_cons_self
    · rw [keep_cons (not_exists.mp hdata)] at h
      rcases List.mem_cons.mp h with rfl | h
      · exact List.mem_cons_self
      · exact List.mem_cons_of_mem _ (ih h)

/-- **A load with the data**: it does what the download means, or runs over the name buffer. -/
theorem loadFast_full (hy : hasFlag flags yflag = false)
    (henc : List.Forall₂ BlockText blocks texts)
    (hend : ∀ block ∈ blocks.dropLast, FastRec.end_ ∉ block) (h : At s x)
    (hmem : s.dl.mem = x.mem)
    (hloads : x.Loads offset (hasFlag flags nflag) (hasFlag flags iflag) layout blocks.flatten) :
    ((∀ r ∈ blocks.flatten, r.Short) →
      ∃ stat s', loadFast logSym layout offset flags texts s = some (stat, s') ∧
        (stat = .cont ∨ stat = .done) ∧
        At s' (x.run offset (hasFlag flags nflag) blocks.flatten) ∧
        s'.dl.mem = (x.run offset (hasFlag flags nflag) blocks.flatten).mem) ∧
    (¬ (∀ r ∈ blocks.flatten, r.Short) →
      loadFast logSym layout offset flags texts s = none) := by
  induction henc generalizing s x with
  | nil =>
    exact ⟨fun _ => ⟨.cont, s, rfl, Or.inl rfl, h, hmem⟩,
      fun hlong => absurd (fun r hr => by cases hr) hlong⟩
  | @cons block t blocks texts hblock hrest ih =>
    rw [List.flatten_cons, Meaning.loads_append] at hloads
    obtain ⟨hfits, hover⟩ := fastLoop_full .cont 0 hy hblock h hmem hloads.1
      (blockText_length hblock).2
    rw [loadFast, dlFastload_eq hblock, List.flatten_cons, run_append]
    by_cases hshort : ∀ r ∈ block, r.Short
    · obtain ⟨s', len', hloop, hat, hmem'⟩ := hfits hshort
      rw [hloop]
      by_cases hlast : FastRec.end_ ∈ block
      · -- The end record is in the last block.
        obtain rfl : blocks = [] := (endLast_cons hend).1 hlast
        rw [if_pos hlast]
        refine ⟨fun _ => ⟨.done, s', rfl, Or.inr rfl, hat, hmem'⟩, fun hlong => absurd ?_ hlong⟩
        rwa [List.flatten_nil, List.append_nil]
      · rw [if_neg hlast]
        obtain ⟨hfits', hover'⟩ := ih (endLast_cons hend).2 hat hmem' hloads.2
        refine ⟨fun hall => hfits' fun r hr => hall r (List.mem_append_right _ hr), fun hlong => ?_⟩
        refine hover' fun hall => hlong fun r hr => ?_
        rcases List.mem_append.mp hr with hr | hr
        · exact hshort r hr
        · exact hall r hr
    · rw [hover hshort]
      exact ⟨fun hall => absurd (fun r hr => hall r (List.mem_append_left _ hr)) hshort,
        fun _ => rfl⟩

/-- **A load for the symbols**: what is kept of the blocks, up to a checksum that is wrong then. -/
theorem loadFast_symbols (layout : MemLayout) (offset : BitVec 32) (hy : hasFlag flags yflag = true)
    (henc : List.Forall₂ BlockText blocks texts)
    (hend : ∀ block ∈ blocks.dropLast, FastRec.end_ ∉ block) (h : At s x)
    (hshort : ∀ r ∈ blocks.flatten, r.Short) :
    ∃ stat s', loadFast logSym layout offset flags texts s = some (stat, s') ∧
      s'.dl.syms = (x.check offset (hasFlag flags nflag) (hasFlag flags iflag)
        (blocks.flatMap keep)).1.syms := by
  induction henc generalizing s x with
  | nil => exact ⟨.cont, s, rfl, h.syms_eq⟩
  | @cons block t blocks texts hblock hrest ih =>
    rw [List.flatten_cons] at hshort
    obtain ⟨stat', len', s', hloop, hcheck⟩ := fastLoop_symbols layout offset .cont 0 hy hblock h
      (fun r hr => hshort r (List.mem_append_left _ hr)) (blockText_length hblock).2
    rw [loadFast, dlFastload_eq hblock, hloop, List.flatMap_cons, Meaning.check_append]
    split at hcheck
    · rename_i hgoes
      obtain ⟨hstat, hat⟩ := hcheck
      rw [if_pos hgoes]
      by_cases hlast : FastRec.end_ ∈ keep block
      · obtain rfl : blocks = [] := (endLast_cons hend).1 (mem_keep hlast)
        rw [if_pos hlast] at hstat
        subst hstat
        exact ⟨.done, s', rfl, hat.syms_eq⟩
      · rw [if_neg hlast] at hstat
        subst hstat
        exact ih (endLast_cons hend).2 hat fun r hr => hshort r (List.mem_append_right _ hr)
    · rename_i hstops
      obtain ⟨rfl, hsyms⟩ := hcheck
      rw [if_neg hstops]
      exact ⟨.badsum, s', rfl, hsyms⟩

/-! ## §7 Which symbols are left -/

/-- The records of a block, and whether they are kept. -/
def mark : List FastRec → List (FastRec × Bool)
  | [] => []
  | .data v :: rs => (.data v, true) :: rs.map fun r => (r, false)
  | r :: rs => (r, true) :: mark rs

/-- The records that are kept. -/
def kept (marked : List (FastRec × Bool)) : List FastRec :=
  marked.filterMap fun (r, k) => if k then some r else none

/-- **The symbols get through**: each stands in front of the left-out part of its block, and its
    address is the same without what is left out (`b`, where the whole download is at `a`); and
    behind a checksum that is wrong without what is left out there are none. -/
def GetThrough (offset : BitVec 32) (ignore : Bool) :
    List (FastRec × Bool) → (a b : BitVec 32) → (sum : ℕ) → Prop
  | [], _, _, _ => True
  | (r, k) :: rest, a, b, sum =>
    (∀ name, r = .symbol name → k = true ∧ b = a) ∧
      (k = true → r.fails ignore sum = true → ∀ q ∈ rest, ∀ name, q.1 ≠ .symbol name) ∧
      GetThrough offset ignore rest (r.move offset a) (if k then r.move offset b else b)
        (if k then r.sum sum else sum)

/-- The symbols of some records from an address on. -/
def symbolsOf (offset : BitVec 32) : List FastRec → BitVec 32 → List (CStr × BitVec 32)
  | [], _ => []
  | r :: rs, a => r.symsAt false a ++ symbolsOf offset rs (r.move offset a)

/-- The same, up to a checksum that is wrong. -/
def symbolsChecked (offset : BitVec 32) (ignore : Bool) :
    List FastRec → BitVec 32 → ℕ → List (CStr × BitVec 32)
  | [], _, _ => []
  | r :: rs, a, sum =>
    if r.fails ignore sum then []
    else r.symsAt false a ++ symbolsChecked offset ignore rs (r.move offset a) (r.sum sum)

variable {marked : List (FastRec × Bool)} {a b : BitVec 32} {sum : ℕ}

theorem mark_cons (hdata : ∀ v, r ≠ .data v) : mark (r :: rs) = (r, true) :: mark rs := by
  cases r with
  | data v => exact absurd rfl (hdata v)
  | _ => rfl

theorem map_fst_mark : (mark rs).map Prod.fst = rs := by
  induction rs with
  | nil => rfl
  | cons r rs ih =>
    by_cases hdata : ∃ v, r = .data v
    · obtain ⟨v, rfl⟩ := hdata
      rw [mark, List.map_cons, List.map_map]
      exact congrArg _ (List.map_id rs)
    · rw [mark_cons (not_exists.mp hdata), List.map_cons, ih]

theorem kept_mark : kept (mark rs) = keep rs := by
  induction rs with
  | nil => rfl
  | cons r rs ih =>
    by_cases hdata : ∃ v, r = .data v
    · obtain ⟨v, rfl⟩ := hdata
      rw [mark, keep, kept, List.filterMap_cons, List.filterMap_map]
      exact congrArg _ (List.filterMap_eq_nil_iff.mpr fun _ _ => rfl)
    · rw [mark_cons (not_exists.mp hdata), keep_cons (not_exists.mp hdata), ← ih]
      rfl

theorem run_syms : (x.run offset false rs).syms = x.syms ++ symbolsOf offset rs x.addr := by
  induction rs generalizing x with
  | nil => exact (List.append_nil _).symm
  | cons r rs ih =>
    refine (ih (x := x.step offset false r)).trans ?_
    rw [symbolsOf, ← List.append_assoc]
    rfl

theorem check_syms : (x.check offset false ignore rs).1.syms =
    x.syms ++ symbolsChecked offset ignore rs x.addr x.sum := by
  induction rs generalizing x with
  | nil => exact (List.append_nil _).symm
  | cons r rs ih =>
    rw [Meaning.check, symbolsChecked]
    split
    · exact (List.append_nil _).symm
    · refine ih.trans ?_
      rw [← List.append_assoc]
      rfl

theorem symsAt_silent (hname : ∀ name, r ≠ .symbol name) : r.symsAt nosyms a = [] := by
  cases r with
  | symbol name => exact absurd rfl (hname name)
  | _ => rfl

theorem kept_cons (k : Bool) :
    kept ((r, k) :: marked) = if k then r :: kept marked else kept marked := by
  cases k <;> rfl

/-- Fewer symbols are left than there are. -/
theorem length_symbolsChecked_le (offset : BitVec 32) (ignore : Bool)
    (marked : List (FastRec × Bool)) (a b : BitVec 32) (sum : ℕ) :
    (symbolsChecked offset ignore (kept marked) b sum).length ≤
      (symbolsOf offset (marked.map Prod.fst) a).length := by
  induction marked generalizing a b sum with
  | nil => exact Nat.le_refl _
  | cons q marked ih =>
    obtain ⟨r, k⟩ := q
    rw [kept_cons, List.map_cons, symbolsOf, List.length_append]
    cases k with
    | false => exact Nat.le_add_left_of_le (ih _ _ _)
    | true =>
      rw [if_pos rfl, symbolsChecked]
      split
      · exact Nat.zero_le _
      · -- A symbol is one in either list.
        have hone : (r.symsAt false b).length = (r.symsAt false a).length := by
          cases r <;> rfl
        rw [List.length_append, hone]
        exact Nat.add_le_add_left (ih _ _ _) _

/-- There are no symbols at all. -/
theorem symbolsOf_eq_nil :
    symbolsOf offset rs a = [] ↔ ∀ r ∈ rs, ∀ name, r ≠ .symbol name := by
  induction rs generalizing a with
  | nil => simp [symbolsOf]
  | cons r rs ih =>
    rw [symbolsOf, List.append_eq_nil_iff, ih, List.forall_mem_cons]
    apply and_congr_left'
    constructor
    · rintro hnone name rfl
      cases hnone
    · exact symsAt_silent

/-- Without symbols none is lost. -/
theorem getThrough_of_none (hnone : ∀ q ∈ marked, ∀ name, q.1 ≠ .symbol name) :
    GetThrough offset ignore marked a b sum := by
  induction marked generalizing a b sum with
  | nil => trivial
  | cons q marked ih =>
    obtain ⟨hq, hrest⟩ := List.forall_mem_cons.mp hnone
    exact ⟨fun name hname => absurd hname (hq name), fun _ _ => hrest, ih hrest⟩

/-- **The symbols that are left are those of the whole download** exactly if they get through. -/
theorem symbolsChecked_iff :
    symbolsChecked offset ignore (kept marked) b sum = symbolsOf offset (marked.map Prod.fst) a ↔
      GetThrough offset ignore marked a b sum := by
  induction marked generalizing a b sum with
  | nil => exact iff_of_true rfl trivial
  | cons q marked ih =>
    obtain ⟨r, k⟩ := q
    rw [kept_cons, List.map_cons, symbolsOf, GetThrough]
    cases k with
    | false =>
      rw [if_neg Bool.false_ne_true, if_neg Bool.false_ne_true, if_neg Bool.false_ne_true]
      by_cases hsym : ∃ name, r = .symbol name
      · -- A symbol that is left out: too few are left.
        obtain ⟨name, rfl⟩ := hsym
        refine iff_of_false (fun heq => ?_) fun h => Bool.false_ne_true (h.1 name rfl).1
        have hle := length_symbolsChecked_le offset ignore marked
          (FastRec.move offset (.symbol name) a) b sum
        rw [heq] at hle
        exact Nat.not_succ_le_self _ hle
      · rw [symsAt_silent (not_exists.mp hsym), List.nil_append, ih]
        exact ⟨fun h => ⟨fun name hname => absurd ⟨name, hname⟩ hsym, nofun, h⟩, fun h => h.2.2⟩
    | true =>
      rw [if_pos rfl, if_pos rfl, if_pos rfl, symbolsChecked]
      by_cases hfails : r.fails ignore sum = true
      · -- A checksum that is wrong: nothing follows.
        have hsilent : ∀ name, r ≠ .symbol name := by
          rintro name rfl
          cases hfails
        rw [if_pos hfails, symsAt_silent hsilent, List.nil_append, eq_comm, symbolsOf_eq_nil,
          List.forall_mem_map]
        exact ⟨fun h => ⟨fun name hname => absurd hname (hsilent name), fun _ _ => h,
          getThrough_of_none h⟩, fun h => h.2.1 rfl hfails⟩
      · rw [if_neg hfails]
        have hgoes : (true = true → r.fails ignore sum = true →
            ∀ q ∈ marked, ∀ name, q.1 ≠ .symbol name) := fun _ h => absurd h hfails
        by_cases hsym : ∃ name, r = .symbol name
        · obtain ⟨name, rfl⟩ := hsym
          simp only [FastRec.symsAt, Bool.false_eq_true, if_false, List.cons_append,
            List.nil_append, List.cons.injEq, Prod.mk.injEq, true_and, ih]
          exact ⟨fun h => ⟨fun _ _ => h.1, fun _ => hgoes rfl, h.2⟩, fun h => ⟨h.1 name rfl, h.2.2⟩⟩
        · have hsilent := not_exists.mp hsym
          rw [symsAt_silent hsilent, symsAt_silent hsilent, List.nil_append, List.nil_append, ih]
          exact ⟨fun h => ⟨fun name hname => absurd hname (hsilent name), hgoes, h⟩,
            fun h => h.2.2⟩

/-- What is kept of a download. -/
theorem kept_flatMap : kept (blocks.flatMap mark) = blocks.flatMap keep := by
  rw [kept, List.filterMap_flatMap]
  exact List.flatMap_congr fun _ _ => kept_mark

theorem map_fst_flatMap : (blocks.flatMap mark).map Prod.fst = blocks.flatten := by
  rw [List.map_flatMap, ← List.flatMap_id]
  exact List.flatMap_congr fun _ _ => map_fst_mark

/-- No symbols are defined when none are asked for. -/
theorem run_nosyms : (x.run offset true rs).syms = x.syms := by
  induction rs generalizing x with
  | nil => rfl
  | cons r rs ih =>
    refine (ih (x := x.step offset true r)).trans ?_
    cases r <;> exact List.append_nil _

theorem check_nosyms : (x.check offset true ignore rs).1.syms = x.syms := by
  induction rs generalizing x with
  | nil => rfl
  | cons r rs ih =>
    rw [Meaning.check]
    split
    · rfl
    · refine (ih (x := x.step offset true r)).trans ?_
      cases r <;> exact List.append_nil _

/-! ## §8 The two loads -/

theorem hasFlag_or {flag : ℕ} (h : yflag &&& flag = 0) :
    hasFlag (flags ||| yflag) flag = hasFlag flags flag := by
  rw [hasFlag, hasFlag, Nat.and_or_distrib_right, h, Nat.or_zero]

theorem hasFlag_yflag : hasFlag (flags ||| yflag) yflag = true := by
  rw [hasFlag, Nat.and_or_distrib_right, decide_eq_true_eq]
  intro hzero
  exact absurd (Nat.or_eq_zero_iff.mp hzero).2 (by decide)

/-- Where a download starts. -/
def FastLoad.meaning (s : LogLoad) : Meaning where
  addr := s.nextaddr
  sum := s.chksum
  mem := s.dl.mem
  syms := s.dl.syms

/-- What a download stores and defines when all of it is loaded. -/
def FastImage.whole {s : LogLoad} (f : FastImage layout offset flags s.meaning) : Meaning :=
  s.meaning.run offset (hasFlag flags nflag) f.blocks.flatten

/-- A load stores and defines what the download means, a load for the symbols defines the same, and
    neither runs over the name buffer. -/
def FastImage.LoadsRight {s : LogLoad} (f : FastImage layout offset flags s.meaning) : Prop :=
  ∃ stat s₁ stat' s₂, loadFast logSym layout offset flags f.texts s = some (stat, s₁) ∧
    (stat = .cont ∨ stat = .done) ∧ s₁.dl.mem = f.whole.mem ∧ s₁.dl.syms = f.whole.syms ∧
    loadFast logSym layout offset (flags ||| yflag) f.texts s = some (stat', s₂) ∧
    s₂.dl.syms = s₁.dl.syms

/-- The names fit; and either there are no symbols, or they get through. -/
def FastImage.Plain {s : LogLoad} (f : FastImage layout offset flags s.meaning) : Prop :=
  (∀ r ∈ f.blocks.flatten, r.Short) ∧
    (hasFlag flags nflag = false → GetThrough offset (hasFlag flags iflag)
      (f.blocks.flatMap mark) s.nextaddr s.nextaddr s.chksum)

/-- The symbols that a load for the symbols defines. -/
theorem check_syms_iff : (x.check offset nosyms ignore (blocks.flatMap keep)).1.syms =
      (x.run offset nosyms blocks.flatten).syms ↔
    (nosyms = false → GetThrough offset ignore (blocks.flatMap mark) x.addr x.addr x.sum) := by
  cases nosyms with
  | true =>
    rw [check_nosyms, run_nosyms]
    exact iff_of_true rfl fun h => absurd h (by decide)
  | false =>
    rw [check_syms, run_syms, List.append_cancel_left_eq, ← kept_flatMap, ← map_fst_flatMap,
      symbolsChecked_iff]
    exact ⟨fun h _ => h, fun h => h rfl⟩

/-- **When a load for the symbols only is right**: exactly if every name fits its buffer and the
    symbols get through, or are not asked for.  None gets through behind the first 24-bit group
    of its block. -/
theorem loadFast_exact {s : LogLoad} (f : FastImage layout offset flags s.meaning)
    (hy : hasFlag flags yflag = false) : f.LoadsRight ↔ f.Plain := by
  have hat : At s s.meaning := ⟨rfl, rfl, rfl⟩
  obtain ⟨hfits, hover⟩ := loadFast_full hy f.encodes f.end_last hat rfl f.loads
  by_cases hshort : ∀ r ∈ f.blocks.flatten, r.Short
  · obtain ⟨stat, s₁, hfull, hstat, hat₁, hmem⟩ := hfits hshort
    obtain ⟨stat', s₂, hsymbols, hsyms⟩ := loadFast_symbols layout offset
      (@hasFlag_yflag flags) f.encodes f.end_last hat hshort
    rw [hasFlag_or (by decide), hasFlag_or (by decide)] at hsyms
    have hsame : s₂.dl.syms = s₁.dl.syms ↔ f.Plain := by
      rw [hsyms, hat₁.syms_eq, check_syms_iff]
      exact (and_iff_right hshort).symm
    rw [← hsame]
    constructor
    · rintro ⟨_, _, _, _, hfull', -, -, -, hsymbols', heq⟩
      cases hfull.symm.trans hfull'
      cases hsymbols.symm.trans hsymbols'
      exact heq
    · exact fun heq => ⟨stat, s₁, stat', s₂, hfull, hstat, hmem, hat₁.syms_eq, hsymbols, heq⟩
  · -- A name that is too long runs over its buffer.
    refine iff_of_false ?_ fun hplain => hshort hplain.1
    rintro ⟨_, _, _, _, hfull, -⟩
    rw [hover hshort] at hfull
    cases hfull

def fastStart : LogLoad where
  dl := ⟨fun _ => 0, .initial, 0, []⟩
  nextaddr := 0x80010000#32
  chksum := 0

/-- A block `AAAA`, `/Sa,`: a group and a symbol behind it. -/
def groupedSymbol : FastImage boardLayout 0 0 fastStart.meaning where
  blocks := [[.data 0, .symbol [0x61]]]
  texts := [[0x41, 0x41, 0x41, 0x41] ++ ([0x2f, 0x53, 0x61, 0x2c] ++ [])]
  encodes := .cons (.cons (.data (v := 0) (by decide)) (.cons
    (@RecordText.symbol [0x61] [] (by decide) (by decide) rfl) .nil)) .nil
  end_last := fun _ h => absurd h (List.not_mem_nil)
  loads := ⟨rfl, fun _ => by decide, rfl, nofun, trivial⟩

/-- The symbol is lost. -/
theorem groupedSymbol_lost : ¬ groupedSymbol.LoadsRight := by
  rintro ⟨stat, s₁, stat', s₂, hfull, -, -, -, hsymbols, hsyms⟩
  have hboth : (loadFast logSym boardLayout 0 0 groupedSymbol.texts fastStart).map
        (fun q => q.2.dl.syms) ≠
      (loadFast logSym boardLayout 0 (0 ||| yflag) groupedSymbol.texts fastStart).map
        (fun q => q.2.dl.syms) := by decide
  rw [hfull, hsymbols, Option.map_some, Option.map_some, hsyms] at hboth
  exact hboth rfl

/-- A block `/Sa,`, `AAAA`: a symbol and a group behind it. -/
def symbolFirst : FastImage boardLayout 0 0 fastStart.meaning where
  blocks := [[.symbol [0x61], .data 0]]
  texts := [[0x2f, 0x53, 0x61, 0x2c] ++ ([0x41, 0x41, 0x41, 0x41] ++ [])]
  encodes := .cons (.cons
    (@RecordText.symbol [0x61] [] (by decide) (by decide) rfl)
    (.cons (.data (v := 0) (by decide)) .nil)) .nil
  end_last := fun _ h => absurd h (List.not_mem_nil)
  loads := ⟨rfl, nofun, rfl, fun _ => by decide, trivial⟩

theorem loadFast_symbolFirst : symbolFirst.LoadsRight := by
  refine (loadFast_exact symbolFirst (by decide)).mpr
    ⟨?_, fun _ => ⟨?_, nofun, nofun, nofun, trivial⟩⟩
  · rintro r (_ | ⟨_, _ | ⟨_, hr⟩⟩)
    · exact (by decide : 1 < linesz)
    · trivial
    · cases hr
  · exact fun _ _ => ⟨rfl, rfl⟩

end Pmon.Loaders
