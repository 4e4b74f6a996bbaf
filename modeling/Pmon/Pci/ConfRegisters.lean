import Mathlib.Algebra.Group.Nat.Defs
import Pmon.Pci.ConfAccess

/-!
# Registers of the configuration space

Reads put the bits of a register above 0xff away from the function; writes put them there a second
time, on top of the function and the device.

## Key results

- `writeAddr_eq`: the register that a write goes to.
- `pciConfWriten_exact`: exactly when a register is written as it is read.
- `write_wrong_function`: a write to an extended register changes another function.
-/

namespace Pmon.Pci

/-! ## §1 Addresses -/

variable {tag tag' reg reg' bus dev func : ℕ} {w : Width} {buses : List PciBridge}
  {val : BitVec 32} {conf : Conf}

theorem or_eq_add {a b i : ℕ} (h : b < 2 ^ i) : a <<< i ||| b = a * 2 ^ i + b := by
  rw [← Nat.shiftLeft_add_eq_or_of_lt h, Nat.shiftLeft_eq]

/-- The bits of a register above 0xff are zero where there are none. -/
theorem extended_eq (addr : ℕ) :
    (if reg > 0xff then addr ||| (reg >>> 8 &&& 0xf) <<< 24 else addr) =
      addr ||| (reg / 256 % 16) <<< 24 := by
  have hext : reg >>> 8 &&& 0xf = reg / 256 % 16 := by
    rw [Nat.shiftRight_eq_div_pow]
    exact Nat.and_two_pow_sub_one_eq_mod _ 4
  rw [hext]
  split
  · rfl
  · rw [Nat.div_eq_of_lt (by omega), Nat.zero_mod, Nat.zero_shiftLeft, Nat.or_zero]

theorem lowByte_eq : reg &&& 0xff = reg % 256 := Nat.and_two_pow_sub_one_eq_mod _ 8

/-- The fields of an address do not overlap. -/
theorem fields_eq {lo ext : ℕ} (base : ℕ) (hbus : bus < 256) (hdev : dev < 32) (hfunc : func < 8)
    (hlo : lo < 256) (hext : ext < 16) :
    base <<< 28 ||| (bus <<< 16 ||| dev <<< 11 ||| func <<< 8 ||| lo) ||| ext <<< 24 =
      base <<< 28 + (ext * 16777216 + bus * 65536 + dev * 2048 + func * 256 + lo) := by
  have hfuncs : func <<< 8 ||| lo = func * 256 + lo := or_eq_add hlo
  have hdevs : dev <<< 11 ||| (func * 256 + lo) = dev * 2048 + (func * 256 + lo) :=
    or_eq_add (by omega)
  have hbuses : bus <<< 16 ||| (dev * 2048 + (func * 256 + lo)) =
      bus * 65536 + (dev * 2048 + (func * 256 + lo)) := or_eq_add (by omega)
  have hexts : ext <<< 24 ||| (bus * 65536 + (dev * 2048 + (func * 256 + lo))) =
      ext * 16777216 + (bus * 65536 + (dev * 2048 + (func * 256 + lo))) := or_eq_add (by omega)
  have hbases : base <<< 28 |||
      (ext * 16777216 + (bus * 65536 + (dev * 2048 + (func * 256 + lo)))) =
        base <<< 28 + (ext * 16777216 + (bus * 65536 + (dev * 2048 + (func * 256 + lo)))) :=
    (Nat.shiftLeft_add_eq_or_of_lt (by omega) base).symm
  rw [Nat.or_assoc, Nat.or_comm _ (ext <<< 24), Nat.or_assoc (bus <<< 16 ||| dev <<< 11),
    Nat.or_assoc (bus <<< 16), hfuncs, hdevs, hbuses, hexts, hbases]
  omega

theorem type1Base : htMapType1ConfAddr = 0x900000fe1 <<< 28 := by decide

theorem type0Base : htMapType0ConfAddr = 0x900000fe0 <<< 28 := by decide

theorem type1ReadAddr_eq (hbus : bus < 256) (hdev : dev < 32) (hfunc : func < 8)
    (hreg : reg < 4096) :
    type1ReadAddr bus dev func reg =
      htMapType1ConfAddr +
        (reg / 256 * 16777216 + bus * 65536 + dev * 2048 + func * 256 + reg % 256) := by
  rw [type1ReadAddr, extended_eq, lowByte_eq, Nat.mod_eq_of_lt (by omega : reg / 256 < 16),
    type1Base, fields_eq _ hbus hdev hfunc (Nat.mod_lt _ (by decide)) (by omega)]

theorem type0ReadAddr_eq (hdev : dev < 32) (hfunc : func < 8) (hreg : reg < 4096) :
    type0ReadAddr dev func reg =
      htMapType0ConfAddr + (reg / 256 * 16777216 + dev * 2048 + func * 256 + reg % 256) := by
  have hfields := fields_eq 0x900000fe0 (by decide : 0 < 256) hdev hfunc
    (Nat.mod_lt reg (by decide : 0 < 256)) (by omega : reg / 256 < 16)
  rw [Nat.zero_shiftLeft, Nat.zero_or, Nat.zero_mul, Nat.add_zero] at hfields
  rw [type0ReadAddr, extended_eq, lowByte_eq, Nat.mod_eq_of_lt (by omega : reg / 256 < 16),
    type0Base, hfields]

/-- The bits of a register that a write puts on the function and the device. -/
theorem scattered_eq (hreg : reg < 4096) :
    reg = (reg / 2048) <<< 11 ||| (reg / 256 % 8) <<< 8 ||| reg % 256 := by
  have hlow : (reg / 256 % 8) <<< 8 ||| reg % 256 = reg / 256 % 8 * 256 + reg % 256 :=
    or_eq_add (Nat.mod_lt _ (by decide))
  have hhigh : (reg / 2048) <<< 11 ||| (reg / 256 % 8 * 256 + reg % 256) =
      reg / 2048 * 2048 + (reg / 256 % 8 * 256 + reg % 256) := or_eq_add (by omega)
  rw [Nat.or_assoc, hlow, hhigh]
  omega

/-- **A write** goes to the register of the function that has the bits of the register, too. -/
theorem type1WriteAddr_eq (hreg : reg < 4096) :
    type1WriteAddr bus dev func reg =
      type1ReadAddr bus (dev ||| reg / 2048) (func ||| reg / 256 % 8) reg := by
  have hreg' := scattered_eq hreg
  rw [type1WriteAddr, type1ReadAddr, type1ReadAddr, extended_eq, extended_eq, lowByte_eq,
    Nat.shiftLeft_or_distrib, Nat.shiftLeft_or_distrib]
  generalize (reg / 2048) <<< 11 = high at hreg' ⊢
  generalize (reg / 256 % 8) <<< 8 = middle at hreg' ⊢
  generalize reg % 256 = low at hreg' ⊢
  generalize (reg / 256 % 16) <<< 24 = ext
  rw [hreg']
  ac_rfl

theorem type0WriteAddr_eq (hreg : reg < 4096) :
    type0WriteAddr dev func reg =
      type0ReadAddr (dev ||| reg / 2048) (func ||| reg / 256 % 8) reg := by
  have hreg' := scattered_eq hreg
  rw [type0WriteAddr, type0ReadAddr, type0ReadAddr, extended_eq, extended_eq, lowByte_eq,
    Nat.shiftLeft_or_distrib, Nat.shiftLeft_or_distrib]
  generalize (reg / 2048) <<< 11 = high at hreg' ⊢
  generalize (reg / 256 % 8) <<< 8 = middle at hreg' ⊢
  generalize reg % 256 = low at hreg' ⊢
  generalize (reg / 256 % 16) <<< 24 = ext
  rw [hreg']
  ac_rfl

/-! ## §2 Words of the configuration space -/

/-- The word that a register is in: its function and the number in it. -/
def wordOf (tag reg : ℕ) : ℕ × ℕ × ℕ × ℕ := (busOf tag, deviceOf tag, functionOf tag, wordReg reg)

theorem tag_bounds (tag : ℕ) : busOf tag < 256 ∧ deviceOf tag < 32 ∧ functionOf tag < 8 :=
  ⟨Nat.mod_lt _ (by decide), Nat.mod_lt _ (by decide), Nat.mod_lt _ (by decide)⟩

theorem wordReg_lt (hreg : reg < 4096) : wordReg reg < 4096 :=
  Nat.lt_of_le_of_lt (Nat.sub_le _ _) hreg

/-- Different words have different addresses. -/
theorem readAddr_inj (hreg : reg < 4096) (hreg' : reg' < 4096)
    (h : readAddr tag reg = readAddr tag' reg') : wordOf tag reg = wordOf tag' reg' := by
  obtain ⟨hbus, hdev, hfunc⟩ := tag_bounds tag
  obtain ⟨hbus', hdev', hfunc'⟩ := tag_bounds tag'
  have hword := wordReg_lt hreg
  have hword' := wordReg_lt hreg'
  rw [readAddr, readAddr, type0ReadAddr_eq hdev hfunc hword, type0ReadAddr_eq hdev' hfunc' hword',
    type1ReadAddr_eq hbus hdev hfunc hword, type1ReadAddr_eq hbus' hdev' hfunc' hword'] at h
  unfold htMapType0ConfAddr htMapType1ConfAddr at h
  rw [wordOf, wordOf, Prod.mk.injEq, Prod.mk.injEq, Prod.mk.injEq]
  split at h <;> split at h <;> omega

/-- The function that a write to a register of a function goes to. -/
def wideTag (tag reg : ℕ) : ℕ :=
  makeTag (busOf tag) (deviceOf tag ||| wordReg reg / 2048)
    (functionOf tag ||| wordReg reg / 256 % 8)

theorem break_makeTag (hbus : bus < 256) (hdev : dev < 32) (hfunc : func < 8) :
    busOf (makeTag bus dev func) = bus ∧ deviceOf (makeTag bus dev func) = dev ∧
      functionOf (makeTag bus dev func) = func := by
  have hdevs : dev <<< 11 ||| func <<< 8 = dev * 2048 + func <<< 8 :=
    or_eq_add (by rw [Nat.shiftLeft_eq]; omega)
  have hbuses : bus <<< 16 ||| (dev * 2048 + func <<< 8) =
      bus * 65536 + (dev * 2048 + func <<< 8) :=
    or_eq_add (by rw [Nat.shiftLeft_eq]; omega)
  rw [makeTag, Nat.or_assoc, hdevs, hbuses, busOf, deviceOf, functionOf, Nat.shiftLeft_eq,
    Nat.shiftRight_eq_div_pow, Nat.shiftRight_eq_div_pow, Nat.shiftRight_eq_div_pow]
  omega

theorem wideTag_fields (tag : ℕ) (hreg : reg < 4096) :
    busOf (wideTag tag reg) = busOf tag ∧
      deviceOf (wideTag tag reg) = deviceOf tag ||| wordReg reg / 2048 ∧
      functionOf (wideTag tag reg) = functionOf tag ||| wordReg reg / 256 % 8 := by
  obtain ⟨hbus, hdev, hfunc⟩ := tag_bounds tag
  have hword := wordReg_lt hreg
  exact break_makeTag hbus (Nat.or_lt_two_pow (n := 5) hdev (by omega))
    (Nat.or_lt_two_pow (n := 3) hfunc (by omega))

/-- **A write** goes to the same register of a function that has the register's bits, too. -/
theorem writeAddr_eq (tag : ℕ) (hreg : reg < 4096) :
    writeAddr tag reg = readAddr (wideTag tag reg) reg := by
  obtain ⟨hbus, hdev, hfunc⟩ := wideTag_fields tag hreg
  rw [writeAddr, readAddr, hbus, hdev, hfunc, type0WriteAddr_eq (wordReg_lt hreg),
    type1WriteAddr_eq (wordReg_lt hreg)]

/-! ## §3 Lanes -/

variable {data : BitVec 32} {i j : ℕ}

/-- An aligned access stays in its word. -/
theorem lane_le (h : reg % w.bytes = 0) : laneShift reg + w.bits ≤ 32 := by
  rw [laneShift, Nat.shiftLeft_eq]
  cases w <;> simp only [Width.bytes, Width.bits] at * <;> omega

theorem laneShift_four (h : reg % Width.four.bytes = 0) : laneShift reg = 0 := by
  rw [laneShift, show reg % 4 = 0 from h]
  rfl

theorem getLsbD_mask : w.mask.getLsbD j = decide (j < w.bits) := by
  have hones : ∀ n, n ≤ 32 → (BitVec.ofNat 32 (2 ^ n - 1)).getLsbD j = decide (j < n) := by
    intro n hn
    rw [BitVec.getLsbD_ofNat, Nat.testBit_two_pow_sub_one]
    by_cases hj : j < n
    · simp [hj, show j < 32 by omega]
    · simp [hj]
  cases w
  · exact hones 8 (by decide)
  · exact hones 16 (by decide)
  · exact hones 32 (by decide)

theorem getLsbD_moveData (h : reg % w.bytes = 0) :
    (moveData data reg w).getLsbD j =
      (data.getLsbD (laneShift reg + j) && decide (j < w.bits)) := by
  cases w with
  | one =>
    rw [moveData, BitVec.getLsbD_and, BitVec.getLsbD_ushiftRight]
    exact congrArg _ (getLsbD_mask (w := .one))
  | two =>
    rw [moveData, BitVec.getLsbD_and, BitVec.getLsbD_ushiftRight]
    exact congrArg _ (getLsbD_mask (w := .two))
  | four =>
    rw [moveData, laneShift_four h, Nat.zero_add]
    by_cases hj : j < 32
    · rw [decide_eq_true (show j < Width.four.bits from hj), Bool.and_true]
    · rw [BitVec.getLsbD_of_ge _ _ (by omega), Bool.false_and]

/-- A word that is written: the lane has the value, and the value's higher bits come on top of what
    is behind the lane. -/
theorem getLsbD_mergeData (h : reg % w.bytes = 0) (hi : i < 32) :
    (mergeData data reg val w).getLsbD i =
      if laneShift reg ≤ i ∧ i < laneShift reg + w.bits then val.getLsbD (i - laneShift reg)
      else (data.getLsbD i || (decide (laneShift reg ≤ i) && val.getLsbD (i - laneShift reg))) := by
  have hnarrow : ∀ w : Width,
      (data &&& ~~~(w.mask <<< laneShift reg) ||| val <<< laneShift reg).getLsbD i =
      if laneShift reg ≤ i ∧ i < laneShift reg + w.bits then val.getLsbD (i - laneShift reg)
      else (data.getLsbD i || (decide (laneShift reg ≤ i) && val.getLsbD (i - laneShift reg))) := by
    intro w
    rw [BitVec.getLsbD_or, BitVec.getLsbD_and, BitVec.getLsbD_not, BitVec.getLsbD_shiftLeft,
      BitVec.getLsbD_shiftLeft, getLsbD_mask]
    by_cases hlo : laneShift reg ≤ i
    · by_cases hhi : i < laneShift reg + w.bits
      · simp [hi, hlo, hhi, show i - laneShift reg < w.bits by omega,
          show ¬i < laneShift reg by omega]
      · simp [hi, hlo, hhi, show ¬i - laneShift reg < w.bits by omega,
          show ¬i < laneShift reg by omega]
    · simp [hi, hlo, show i < laneShift reg by omega]
  cases w with
  | one => exact hnarrow .one
  | two => exact hnarrow .two
  | four =>
    rw [mergeData, laneShift_four h,
      if_pos ⟨Nat.zero_le _, by simpa [Width.bits, Width.bytes] using hi⟩]
    rfl

/-- A mask that leaves a high bit leaves everything. -/
theorem mask_eq_iff {c : BitVec 32} (hc : c.getLsbD 25 = true) :
    val &&& w.mask = c ↔ w = .four ∧ val = c := by
  constructor
  · intro h
    have hbit := congrArg (BitVec.getLsbD · 25) h
    simp only [BitVec.getLsbD_and, getLsbD_mask, hc, Bool.and_eq_true, decide_eq_true_eq] at hbit
    cases w with
    | one => exact absurd hbit.2 (by decide)
    | two => exact absurd hbit.2 (by decide)
    | four =>
      refine ⟨rfl, h ▸ ?_⟩
      exact (BitVec.and_allOnes).symm
  · rintro ⟨rfl, rfl⟩
    exact BitVec.and_allOnes

/-! ## §4 Registers -/

/-- A register is written: it reads as the value, masked to the width, the other bits of its word
    are as before, and so is every word of another function and every other word of this one. -/
structure RegisterWritten (buses : List PciBridge) (conf : Conf) (tag reg : ℕ) (val : BitVec 32)
    (w : Width) : Prop where
  reads : pciConfReadn buses (pciConfWriten buses conf tag reg val w) tag reg w = val &&& w.mask
  rest : ∀ i < 32, i < laneShift reg ∨ laneShift reg + w.bits ≤ i →
    (pciConfWriten buses conf tag reg val w (readAddr tag reg)).getLsbD i =
      (conf (readAddr tag reg)).getLsbD i
  others : ∀ tag' reg', reg' < 4096 → wordOf tag' reg' ≠ wordOf tag reg →
    pciConfWriten buses conf tag reg val w (readAddr tag' reg') = conf (readAddr tag' reg')

/-- The accesses that are refused: to a register that is not aligned or not there, or to a device
    that cannot be behind a root port. -/
def Refused (buses : List PciBridge) (tag reg : ℕ) (w : Width) : Prop :=
  badReg reg w ∨ busOf tag ≠ 0 ∧ isPcieRootPort buses (busOf tag) ∧ deviceOf tag > 0

/-- The device that always reads as all ones. -/
def Hidden (tag : ℕ) : Prop := busOf tag = 0 ∧ deviceOf tag = 2

/-- The ports whose class word always reads as that of a bridge. -/
def Port (tag : ℕ) : Prop := busOf tag = 0 ∧ 9 ≤ deviceOf tag ∧ deviceOf tag ≤ 14

instance : Decidable (Refused buses tag reg w) := inferInstanceAs (Decidable (_ ∨ _))

instance : Decidable (Hidden tag) := inferInstanceAs (Decidable (_ ∧ _))

instance : Decidable (Port tag) := inferInstanceAs (Decidable (_ ∧ _))

/-- The bits of the register that a write puts on the function are there already. -/
def Narrow (tag reg : ℕ) : Prop :=
  deviceOf tag ||| wordReg reg / 2048 = deviceOf tag ∧
    functionOf tag ||| wordReg reg / 256 % 8 = functionOf tag

/-- When a register is written as it is read. -/
def WritesAsRead (buses : List PciBridge) (tag reg : ℕ) (val : BitVec 32) (w : Width) : Prop :=
  if Refused buses tag reg w then w = .four ∧ val = 0xffffffff#32
  else
    Narrow tag reg ∧
      if Hidden tag then w = .four ∧ val = 0xffffffff#32
      else if Port tag ∧ wordReg reg = 8 then w = .four ∧ val = 0x06040001#32
      else (val >>> w.bits) <<< (laneShift reg + w.bits) = 0#32

theorem wordReg_wordReg : wordReg (wordReg reg) = wordReg reg := by
  rw [wordReg, wordReg]
  omega

theorem readAddr_wordReg : readAddr tag (wordReg reg) = readAddr tag reg := by
  rw [readAddr, readAddr, wordReg_wordReg]

/-- What a word reads as. -/
theorem readn_eq (h : ¬Refused buses tag reg w) :
    pciConfReadn buses conf tag reg w =
      if Hidden tag then 0xffffffff#32
      else if Port tag ∧ reg = 8 then 0x06040001#32
      else moveData (conf (readAddr tag reg)) reg w := by
  obtain ⟨hgood, hport⟩ := not_or.mp h
  rw [pciConfReadn, if_neg hgood]
  by_cases hhidden : Hidden tag
  · rw [if_pos hhidden]
    exact if_pos hhidden
  rw [if_neg hhidden, if_neg (show ¬(busOf tag = 0 ∧ deviceOf tag = 2) from hhidden)]
  by_cases hheader : Port tag ∧ reg = 8
  · rw [if_pos hheader]
    exact if_pos ⟨hheader.1.1, hheader.1.2, hheader.2⟩
  · rw [if_neg hheader, if_neg fun h => hheader ⟨⟨h.1, h.2.1⟩, h.2.2⟩, if_neg hport]

theorem writen_eq (h : ¬Refused buses tag reg w) :
    pciConfWriten buses conf tag reg val w =
      Function.update conf (writeAddr tag reg)
        (mergeData (pciConfReadn buses conf tag (wordReg reg) .four) reg val w) := by
  obtain ⟨hgood, hport⟩ := not_or.mp h
  rw [pciConfWriten, if_neg hgood, if_neg hport]

theorem writen_refused (h : Refused buses tag reg w) :
    pciConfWriten buses conf tag reg val w = conf := by
  rw [pciConfWriten]
  rcases h with hbad | hport
  · exact if_pos hbad
  · rw [if_pos hport, ite_self]

theorem readn_refused (h : Refused buses tag reg w) :
    pciConfReadn buses conf tag reg w = 0xffffffff#32 := by
  rw [pciConfReadn]
  rcases h with hbad | hport
  · exact if_pos hbad
  · have hbus := hport.1
    have hhidden : ¬(busOf tag = 0 ∧ deviceOf tag = 2) := fun h => hbus h.1
    have hheader : ¬(busOf tag = 0 ∧ (9 ≤ deviceOf tag ∧ deviceOf tag ≤ 14) ∧ reg = 8) :=
      fun h => hbus h.1
    rw [if_neg hhidden, if_neg hheader, if_pos hport, ite_self]

/-- A refused access does nothing and reads as all ones. -/
theorem registerWritten_refused (conf : Conf) (h : Refused buses tag reg w) :
    RegisterWritten buses conf tag reg val w ↔ w = .four ∧ val = 0xffffffff#32 := by
  rw [← mask_eq_iff (by decide)]
  constructor
  · intro hwritten
    have hreads := hwritten.reads
    rw [readn_refused h] at hreads
    exact hreads.symm
  · intro hmask
    refine ⟨?_, fun i _ _ => ?_, fun tag' reg' _ _ => ?_⟩
    · rw [readn_refused h, hmask]
    · rw [writen_refused h]
    · rw [writen_refused h]

/-- A write goes to the word it is for, or to one of another function. -/
theorem narrow_iff (hreg : reg < 4096) :
    Narrow tag reg ↔ wordOf (wideTag tag reg) reg = wordOf tag reg := by
  obtain ⟨hbus, hdev, hfunc⟩ := wideTag_fields tag hreg
  rw [wordOf, wordOf, hbus, hdev, hfunc, Narrow]
  simp only [Prod.mk.injEq, true_and, and_true]

theorem reg_lt (h : ¬Refused buses tag reg w) : reg < 4096 ∧ reg % w.bytes = 0 := by
  have hgood := (not_or.mp h).1
  simp only [badReg, ne_eq, ge_iff_le, decide_eq_true_eq, not_or, not_not, Nat.not_le] at hgood
  exact ⟨hgood.2, hgood.1⟩

theorem aligned_word (hreg : reg < 4096) : badReg (wordReg reg) .four = false := by
  have hword := wordReg_lt hreg
  have haligned : wordReg reg % 4 = 0 := by
    rw [wordReg]
    omega
  simp only [badReg, Width.bytes, haligned, decide_eq_false_iff_not]
  omega

/-- The word read before a write is that of the register. -/
theorem readn_word (h : ¬Refused buses tag reg w) :
    pciConfReadn buses conf tag (wordReg reg) .four =
      if Hidden tag then 0xffffffff#32
      else if Port tag ∧ wordReg reg = 8 then 0x06040001#32
      else conf (readAddr tag reg) := by
  have hword : ¬Refused buses tag (wordReg reg) .four := by
    rintro (hbad | hport)
    · rw [aligned_word (reg_lt h).1] at hbad
      exact Bool.false_ne_true hbad
    · exact h (.inr hport)
  rw [readn_eq hword, readAddr_wordReg]
  rfl

/-- A write to another function is seen there, for some content. -/
theorem narrow_of_written (h : ¬Refused buses tag reg w)
    (hall : ∀ conf, RegisterWritten buses conf tag reg val w) : Narrow tag reg := by
  obtain ⟨hreg, -⟩ := reg_lt h
  rw [narrow_iff hreg]
  by_contra hne
  have haddr : readAddr tag reg ≠ readAddr (wideTag tag reg) reg :=
    fun heq => hne (readAddr_inj hreg hreg heq).symm
  -- What is written does not depend on the other function: let that hold something else.
  let empty : Conf := fun _ => 0#32
  let written := mergeData (pciConfReadn buses empty tag (wordReg reg) .four) reg val w
  let conf : Conf := Function.update empty (readAddr (wideTag tag reg) reg) (~~~written)
  have hread : pciConfReadn buses conf tag (wordReg reg) .four =
      pciConfReadn buses empty tag (wordReg reg) .four := by
    rw [readn_word h, readn_word h, show conf (readAddr tag reg) = empty (readAddr tag reg) from
      Function.update_of_ne haddr _ _]
  have hothers := (hall conf).others (wideTag tag reg) reg hreg hne
  rw [writen_eq h, hread, writeAddr_eq tag hreg, Function.update_self,
    show conf (readAddr (wideTag tag reg) reg) = ~~~written from Function.update_self _ _ _]
    at hothers
  have hbit := congrArg (BitVec.getLsbD · 0) hothers
  simp [written] at hbit

/-- The bits of a value that come out above its lane. -/
theorem overflow_iff :
    (val >>> w.bits) <<< (laneShift reg + w.bits) = 0#32 ↔
      ∀ i < 32, laneShift reg + w.bits ≤ i → val.getLsbD (i - laneShift reg) = false := by
  constructor
  · intro hzero i hi hlane
    have hbit := congrArg (BitVec.getLsbD · i) hzero
    simp only [BitVec.getLsbD_shiftLeft, BitVec.getLsbD_ushiftRight, BitVec.getLsbD_zero, hi,
      decide_true, Bool.true_and, Nat.not_lt.mpr hlane, decide_false, Bool.not_false] at hbit
    rwa [show w.bits + (i - (laneShift reg + w.bits)) = i - laneShift reg by omega] at hbit
  · intro hbits
    refine BitVec.eq_of_getLsbD_eq fun i hi => ?_
    rw [BitVec.getLsbD_shiftLeft, BitVec.getLsbD_ushiftRight, BitVec.getLsbD_zero]
    by_cases hlane : laneShift reg + w.bits ≤ i
    · rw [show w.bits + (i - (laneShift reg + w.bits)) = i - laneShift reg by omega,
        hbits i hi hlane, Bool.and_false]
    · rw [decide_eq_true (by omega : i < laneShift reg + w.bits), Bool.not_true, Bool.and_false,
        Bool.false_and]

theorem moveData_mergeData (h : reg % w.bytes = 0) :
    moveData (mergeData data reg val w) reg w = val &&& w.mask := by
  have hlane := lane_le h
  refine BitVec.eq_of_getLsbD_eq fun i hi => ?_
  rw [getLsbD_moveData h, BitVec.getLsbD_and, getLsbD_mask]
  by_cases hw : i < w.bits
  · rw [getLsbD_mergeData h (by omega), if_pos (by omega), Nat.add_sub_cancel_left]
  · rw [decide_eq_false hw, Bool.and_false, Bool.and_false]

/-- What a write to a register of the function itself does. -/
theorem writen_narrow (h : ¬Refused buses tag reg w) (hnarrow : Narrow tag reg) :
    pciConfWriten buses conf tag reg val w =
      Function.update conf (readAddr tag reg)
        (mergeData (pciConfReadn buses conf tag (wordReg reg) .four) reg val w) := by
  have hreg := (reg_lt h).1
  have hword := (narrow_iff hreg).mp hnarrow
  have haddr : readAddr (wideTag tag reg) reg = readAddr tag reg := by
    simp only [wordOf, Prod.mk.injEq, and_true] at hword
    rw [readAddr, readAddr, hword.1, hword.2.1, hword.2.2]
  rw [writen_eq h, writeAddr_eq tag hreg, haddr]

/-- The other words are never a matter of what is written. -/
theorem registerWritten_narrow (conf : Conf) (h : ¬Refused buses tag reg w)
    (hnarrow : Narrow tag reg) :
    RegisterWritten buses conf tag reg val w ↔
      (pciConfReadn buses (pciConfWriten buses conf tag reg val w) tag reg w = val &&& w.mask) ∧
        ∀ i < 32, i < laneShift reg ∨ laneShift reg + w.bits ≤ i →
          (mergeData (pciConfReadn buses conf tag (wordReg reg) .four) reg val w).getLsbD i =
            (conf (readAddr tag reg)).getLsbD i := by
  have hreg := (reg_lt h).1
  have hself : pciConfWriten buses conf tag reg val w (readAddr tag reg) =
      mergeData (pciConfReadn buses conf tag (wordReg reg) .four) reg val w := by
    rw [writen_narrow h hnarrow, Function.update_self]
  rw [← hself]
  refine ⟨fun hwritten => ⟨hwritten.reads, hwritten.rest⟩, fun ⟨hreads, hrest⟩ =>
    ⟨hreads, hrest, fun tag' reg' hreg' hne => ?_⟩⟩
  rw [writen_narrow h hnarrow]
  exact Function.update_of_ne (fun heq => hne (readAddr_inj hreg' hreg heq)) _ _

/-- A word that always reads as one constant: only that constant is read back, and only an access
    to the whole word leaves the rest of it. -/
theorem registerWritten_constant (h : ¬Refused buses tag reg w) (hnarrow : Narrow tag reg)
    {c : BitVec 32} (hc : c.getLsbD 25 = true)
    (hword : ∀ conf, pciConfReadn buses conf tag (wordReg reg) .four = c)
    (hread : reg = wordReg reg → ∀ conf, pciConfReadn buses conf tag reg w = c) :
    (∀ conf, RegisterWritten buses conf tag reg val w) ↔ w = .four ∧ val = c := by
  obtain ⟨-, haligned⟩ := reg_lt h
  have hlane := lane_le haligned
  constructor
  · intro hall
    by_cases hreg : reg = wordReg reg
    · have hreads := (hall fun _ => 0#32).reads
      rw [hread hreg] at hreads
      exact (mask_eq_iff hc).mp hreads.symm
    · -- The lane is above the first byte, whose bits are those of the constant.
      have hpos : 0 < laneShift reg := by
        rw [laneShift, Nat.shiftLeft_eq]
        rw [wordReg] at hreg
        omega
      have hrest := ((registerWritten_narrow (fun _ => ~~~c) h hnarrow).mp (hall _)).2 0
        (by decide) (.inl hpos)
      rw [hword, getLsbD_mergeData haligned (by decide), if_neg (by omega),
        decide_eq_false (by omega), Bool.false_and, Bool.or_false] at hrest
      simp at hrest
  · rintro ⟨rfl, rfl⟩ conf
    have hfour : wordReg reg = reg := by
      rw [wordReg, show reg % 4 = 0 from haligned, Nat.sub_zero]
    refine (registerWritten_narrow conf h hnarrow).mpr ⟨?_, fun i hi hout => ?_⟩
    · rw [hread hfour.symm]
      exact ((mask_eq_iff hc).mpr ⟨rfl, rfl⟩).symm
    · rw [laneShift_four haligned] at hout
      simp only [Width.bits, Width.bytes] at hout
      omega

/-- A word that is what it holds: a write must not bring bits above its lane. -/
theorem registerWritten_plain (h : ¬Refused buses tag reg w) (hnarrow : Narrow tag reg)
    (hhidden : ¬Hidden tag) (hheader : ¬(Port tag ∧ wordReg reg = 8)) :
    (∀ conf, RegisterWritten buses conf tag reg val w) ↔
      (val >>> w.bits) <<< (laneShift reg + w.bits) = 0#32 := by
  obtain ⟨-, haligned⟩ := reg_lt h
  have hword : ∀ conf, pciConfReadn buses conf tag (wordReg reg) .four = conf (readAddr tag reg) :=
    fun conf => by rw [readn_word h, if_neg hhidden, if_neg hheader]
  have hheader' : ¬(Port tag ∧ reg = 8) := fun ⟨hport, heq⟩ => hheader ⟨hport, by rw [heq]; rfl⟩
  rw [overflow_iff]
  constructor
  · intro hall i hi hlane
    have hrest := ((registerWritten_narrow (fun _ => 0#32) h hnarrow).mp (hall _)).2 i hi
      (.inr hlane)
    rw [hword, getLsbD_mergeData haligned hi, if_neg (by omega), decide_eq_true (by omega),
      Bool.true_and, BitVec.getLsbD_zero, Bool.false_or] at hrest
    exact hrest
  · intro hbits conf
    refine (registerWritten_narrow conf h hnarrow).mpr ⟨?_, fun i hi hout => ?_⟩
    · rw [readn_eq h, if_neg hhidden, if_neg hheader', writen_narrow h hnarrow,
        Function.update_self, moveData_mergeData haligned]
    · rw [hword, getLsbD_mergeData haligned hi, if_neg (by omega)]
      rcases hout with hbelow | habove
      · rw [decide_eq_false (by omega), Bool.false_and, Bool.or_false]
      · rw [hbits i hi habove, Bool.and_false, Bool.or_false]

/-- **A register is written as it is read**, whatever the configuration space holds, exactly when
    the access is not refused, its extended bits are in the function already, no bits of the value
    are above its width, and the word is not one that always reads as a constant. -/
theorem pciConfWriten_exact (buses : List PciBridge) (tag reg : ℕ) (val : BitVec 32) (w : Width) :
    (∀ conf, RegisterWritten buses conf tag reg val w) ↔ WritesAsRead buses tag reg val w := by
  rw [WritesAsRead]
  by_cases hrefused : Refused buses tag reg w
  · rw [if_pos hrefused, ← registerWritten_refused (fun _ => 0#32) hrefused]
    refine ⟨fun hall => hall _, fun hone conf => ?_⟩
    exact (registerWritten_refused conf hrefused).mpr ((registerWritten_refused _ hrefused).mp hone)
  rw [if_neg hrefused]
  have hsplit : (∀ conf, RegisterWritten buses conf tag reg val w) ↔ Narrow tag reg ∧
      ∀ conf, RegisterWritten buses conf tag reg val w :=
    ⟨fun hall => ⟨narrow_of_written hrefused hall, hall⟩, And.right⟩
  rw [hsplit]
  refine and_congr_right fun hnarrow => ?_
  by_cases hhidden : Hidden tag
  · rw [if_pos hhidden]
    exact registerWritten_constant hrefused hnarrow (by decide)
      (fun conf => by rw [readn_word hrefused, if_pos hhidden])
      (fun _ conf => by rw [readn_eq hrefused, if_pos hhidden])
  rw [if_neg hhidden]
  by_cases hheader : Port tag ∧ wordReg reg = 8
  · rw [if_pos hheader]
    exact registerWritten_constant hrefused hnarrow (by decide)
      (fun conf => by rw [readn_word hrefused, if_neg hhidden, if_pos hheader])
      (fun heq conf => by
        rw [readn_eq hrefused, if_neg hhidden, if_pos ⟨hheader.1, heq.trans hheader.2⟩])
  · rw [if_neg hheader]
    exact registerWritten_plain hrefused hnarrow hhidden hheader

/-- A write to register 0x100 of device 3 is one to its next function. -/
theorem write_wrong_function :
    pciConfWriten [] (fun _ => 0#32) (makeTag 0 3 0) 0x100 0x12345678#32 .four
        (readAddr (makeTag 0 3 1) 0x100) = 0x12345678#32 ∧
      ¬∀ conf, RegisterWritten [] conf (makeTag 0 3 0) 0x100 0x12345678#32 .four := by
  refine ⟨by decide, fun hall => ?_⟩
  have hreads := (hall fun _ => 0#32).reads
  revert hreads
  decide

end Pmon.Pci
