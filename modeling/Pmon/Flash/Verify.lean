import Mathlib.Data.Nat.Digits.Lemmas
import Pmon.Flash.Map

/-!
# Verifying flash memory

`fl_verify_device` of `pmon/dev/flash.c`: a range of flash memory is compared with memory, in units
of the bus.  The result is what the last comparison left in `ok`; only in verbose mode does a
difference end the loop, and then the chip may be erased.

## Key results

- `load_eq_iff`: a unit is equal exactly if its bytes are.
- `verifyLoop_quiet`, `verifyLoop_verbose`: what the loop returns.
- `flVerifyDevice_exact`: when success is reported exactly for equal ranges.
-/

namespace Pmon.Flash

/-! ## §1 The comparison -/

/-- The memory that the processor sees. -/
abbrev Space := BitVec 32 → UInt8

/-- `n` bytes from an address on. -/
def bytesAt (m : Space) (n : ℕ) (a : BitVec 32) : List UInt8 :=
  (List.range n).map fun j => m (a + BitVec.ofNat 32 j)

/-- A load of `n` bytes. -/
def load (m : Space) (n : ℕ) (a : BitVec 32) : ℕ :=
  Nat.ofDigits 256 ((bytesAt m n a).map UInt8.toNat)

/-- The byte of an 8 bit flash on a 64 bit bus. -/
def wideAddr (map : FlMap) (a : BitVec 32) : BitVec 32 :=
  map.flMapBase + (a - map.flMapBase) <<< 3

/-- The comparison of a round: `none` where a load traps; no comparison is made for a bus that
    the switch does not name. -/
def compareUnit (map : FlMap) (m : Space) (flBase dataBase : BitVec 32) : Option (Option Bool) :=
  match map.flMapBus with
  | .bus8 => some (some (m flBase == m dataBase))
  | .bus16 =>
    if flBase.toNat % 2 = 0 ∧ dataBase.toNat % 2 = 0 then
      some (some (load m 2 flBase == load m 2 dataBase))
    else none
  | .bus32 =>
    if flBase.toNat % 4 = 0 ∧ dataBase.toNat % 4 = 0 then
      some (some (load m 4 flBase == load m 4 dataBase))
    else none
  | .bus64 =>
    -- the quad word is moved by one load, and compared by `bcmp`
    if flBase.toNat % 8 = 0 then some (some (bytesAt m 8 dataBase == bytesAt m 8 flBase)) else none
  | .bus8On64 => some (some (m (wideAddr map flBase) == m dataBase))
  | .bus16On64 => some none

/-- How far both pointers move in a round. -/
def Bus.step : Bus → ℕ
  | bus8 => 1
  | bus16 => 2
  | bus32 => 4
  | bus64 => 8
  | bus8On64 => 1
  | bus16On64 => 0

/-! ## §2 The loop -/

/-- What follows a difference in verbose mode: the chip is erased if the user wants it, and `ok`
    is then the answer of the device. -/
def offerErase (str : List UInt8) (isbusy : ℕ → Busy) : ℤ :=
  if str.head? = some 121 ∨ str.head? = some 89 then (waitBusy isbusy 0).1.code else 0

/-- The loop, from byte `i` on. -/
def verifyLoop (map : FlMap) (m : Space) (str : List UInt8) (isbusy : ℕ → Busy)
    (dataSize verbose : BitVec 32) (i : ℕ) (flBase dataBase : BitVec 32) (ok : ℤ) : Option ℤ :=
  if i < dataSize.toInt.toNat then
    match compareUnit map m flBase dataBase with
    | none => none
    | some compared =>
      let ok := compared.elim ok fun same => if same then 1 else 0
      -- `verbose & !ok`
      if verbose.getLsbD 0 ∧ ok = 0 then some (offerErase str isbusy)
      else
        let step := BitVec.ofNat 32 map.flMapBus.step
        verifyLoop map m str isbusy dataSize verbose (i + map.flMapWidth) (flBase + step)
          (dataBase + step) ok
  else some ok
termination_by dataSize.toInt.toNat - i
decreasing_by
  have := map.width_pos
  omega

/-- The parameters are accepted. -/
def Accepted (map : FlMap) (flBase dataBase dataSize : BitVec 32) : Prop :=
  ¬ (dataSize = -1 ∨ dataBase = -1) ∧
    ¬ map.flMapSize < (dataSize + (flBase - map.flMapBase)).toNat

instance (map : FlMap) (flBase dataBase dataSize : BitVec 32) :
    Decidable (Accepted map flBase dataBase dataSize) :=
  inferInstanceAs (Decidable (_ ∧ _))

/-- `fl_verify_device`, with what `ok` holds at first; `none` if a load traps. -/
def flVerifyDevice (known : FlMap → Option FlDevice) (maps : List FlMap) (m : Space)
    (str : List UInt8) (isbusy : ℕ → Busy) (ok : ℤ) (flBase dataBase dataSize verbose : BitVec 32) :
    Option ℤ :=
  match flDevident known maps flBase with
  | none => some (-3)
  | some (map, _) =>
    if Accepted map flBase dataBase dataSize then
      verifyLoop map m str isbusy dataSize verbose 0 flBase dataBase ok
    else some (-4)

/-! ## §3 A unit -/

variable {map : FlMap} {m : Space} {flBase dataBase a b : BitVec 32} {k n : ℕ}

theorem bytesAt_eq_iff : bytesAt m n a = bytesAt m n b ↔
    ∀ j < n, m (a + BitVec.ofNat 32 j) = m (b + BitVec.ofNat 32 j) := by
  unfold bytesAt
  rw [List.map_inj_left]
  simp only [List.mem_range]

/-- **Two loads are equal** exactly if the bytes are. -/
theorem load_eq_iff : load m n a = load m n b ↔
    ∀ j < n, m (a + BitVec.ofNat 32 j) = m (b + BitVec.ofNat 32 j) := by
  rw [← bytesAt_eq_iff]
  constructor
  · intro h
    have hbytes : ∀ c : BitVec 32, ∀ l ∈ (bytesAt m n c).map UInt8.toNat, l < 256 := by
      intro c l hl
      obtain ⟨byte, _, rfl⟩ := List.mem_map.mp hl
      exact byte.toNat_lt
    have hlength : ((bytesAt m n a).map UInt8.toNat).length =
        ((bytesAt m n b).map UInt8.toNat).length := by
      simp [bytesAt]
    have hnumbers := Nat.ofDigits_inj_of_len_eq (by decide) hlength (hbytes a) (hbytes b) h
    exact List.map_injective_iff.mpr (fun x y hxy => UInt8.toNat_inj.mp hxy) hnumbers
  · intro h
    unfold load
    rw [h]

/-- The byte that flash memory holds at an address. -/
def flashByte (map : FlMap) (m : Space) (a : BitVec 32) : UInt8 :=
  match map.flMapBus with
  | .bus8On64 => m (wideAddr map a)
  | _ => m a

/-- Flash memory and memory agree in byte `i` of the range. -/
def AgreesAt (map : FlMap) (m : Space) (flBase dataBase : BitVec 32) (i : ℕ) : Prop :=
  flashByte map m (flBase + BitVec.ofNat 32 i) = m (dataBase + BitVec.ofNat 32 i)

instance (map : FlMap) (m : Space) (flBase dataBase : BitVec 32) (i : ℕ) :
    Decidable (AgreesAt map m flBase dataBase i) :=
  inferInstanceAs (Decidable (_ = _))

/-- They agree in unit `k`. -/
def UnitAgrees (map : FlMap) (m : Space) (flBase dataBase : BitVec 32) (k : ℕ) : Prop :=
  ∀ j < map.flMapBus.step, AgreesAt map m flBase dataBase (k * map.flMapBus.step + j)

instance (map : FlMap) (m : Space) (flBase dataBase : BitVec 32) (k : ℕ) :
    Decidable (UnitAgrees map m flBase dataBase k) :=
  inferInstanceAs (Decidable (∀ j < _, _))

/-- The loads do not trap. -/
def Aligned (map : FlMap) (flBase dataBase : BitVec 32) : Prop :=
  match map.flMapBus with
  | .bus16 => flBase.toNat % 2 = 0 ∧ dataBase.toNat % 2 = 0
  | .bus32 => flBase.toNat % 4 = 0 ∧ dataBase.toNat % 4 = 0
  | .bus64 => flBase.toNat % 8 = 0
  | _ => True

/-- Where a unit begins. -/
def unitAt (map : FlMap) (base : BitVec 32) (k : ℕ) : BitVec 32 :=
  base + BitVec.ofNat 32 (k * map.flMapBus.step)

theorem unitAt_succ :
    unitAt map a k + BitVec.ofNat 32 map.flMapBus.step = unitAt map a (k + 1) := by
  unfold unitAt
  rw [Nat.succ_mul, BitVec.ofNat_add, BitVec.add_assoc]

theorem unitAt_add (j : ℕ) : unitAt map a k + BitVec.ofNat 32 j =
    a + BitVec.ofNat 32 (k * map.flMapBus.step + j) := by
  unfold unitAt
  rw [BitVec.ofNat_add, BitVec.add_assoc]

/-- Every unit is aligned as the first one is. -/
theorem Aligned.unitAt (h : Aligned map flBase dataBase) (k : ℕ) :
    Aligned map (unitAt map flBase k) (unitAt map dataBase k) := by
  have hadd : ∀ a : BitVec 32, (Flash.unitAt map a k).toNat =
      (a.toNat + k * map.flMapBus.step % 4294967296) % 4294967296 := by
    intro a
    simp [Flash.unitAt]
  unfold Aligned at h ⊢
  rw [hadd, hadd]
  cases hbus : map.flMapBus with
  | bus8 => trivial
  | bus16 => rw [hbus] at h; simp only [Bus.step] at h ⊢; omega
  | bus32 => rw [hbus] at h; simp only [Bus.step] at h ⊢; omega
  | bus64 => rw [hbus] at h; simp only [Bus.step] at h ⊢; omega
  | bus8On64 => trivial
  | bus16On64 => trivial

/-- **A round compares its unit.** -/
theorem compareUnit_eq (hbus : map.flMapBus ≠ .bus16On64) (h : Aligned map flBase dataBase) :
    compareUnit map m (unitAt map flBase k) (unitAt map dataBase k) =
      some (some (decide (UnitAgrees map m flBase dataBase k))) := by
  have haligned := h.unitAt k
  have hunit : UnitAgrees map m flBase dataBase k ↔ ∀ j < map.flMapBus.step,
      flashByte map m (unitAt map flBase k + BitVec.ofNat 32 j) =
        m (unitAt map dataBase k + BitVec.ofNat 32 j) := by
    unfold UnitAgrees AgreesAt
    simp only [unitAt_add]
  have hsame : ∀ c : Bool, (c = true ↔ UnitAgrees map m flBase dataBase k) →
      some (some c) = some (some (decide (UnitAgrees map m flBase dataBase k))) := by
    intro c hc
    rw [Bool.eq_iff_iff.mpr (hc.trans decide_eq_true_iff.symm)]
  unfold flashByte at hunit
  unfold compareUnit
  unfold Aligned at haligned
  cases hmap : map.flMapBus with
  | bus8 =>
    simp only [hmap, Bus.step] at hunit
    apply hsame
    rw [hunit]
    simp
  | bus16 =>
    simp only [hmap, Bus.step] at hunit haligned
    rw [if_pos haligned]
    apply hsame
    rw [hunit, beq_iff_eq, load_eq_iff]
  | bus32 =>
    simp only [hmap, Bus.step] at hunit haligned
    rw [if_pos haligned]
    apply hsame
    rw [hunit, beq_iff_eq, load_eq_iff]
  | bus64 =>
    simp only [hmap, Bus.step] at hunit haligned
    rw [if_pos haligned]
    apply hsame
    rw [hunit, beq_iff_eq, eq_comm, bytesAt_eq_iff]
  | bus8On64 =>
    simp only [hmap, Bus.step] at hunit
    apply hsame
    rw [hunit]
    simp
  | bus16On64 => exact absurd hmap hbus

theorem compareUnit_trap (h : ¬ Aligned map flBase dataBase) :
    compareUnit map m flBase dataBase = none := by
  unfold Aligned at h
  unfold compareUnit
  cases hmap : map.flMapBus with
  | bus8 => rw [hmap] at h; exact absurd trivial h
  | bus16 => rw [hmap] at h; exact if_neg h
  | bus32 => rw [hmap] at h; exact if_neg h
  | bus64 => rw [hmap] at h; exact if_neg h
  | bus8On64 => rw [hmap] at h; exact absurd trivial h
  | bus16On64 => rw [hmap] at h; exact absurd trivial h

/-! ## §4 The loop, by units -/

variable {str : List UInt8} {isbusy : ℕ → Busy} {dataSize verbose : BitVec 32} {ok : ℤ}

/-- How many rounds there are. -/
def rounds (map : FlMap) (dataSize : BitVec 32) : ℕ :=
  (dataSize.toInt.toNat + map.flMapWidth - 1) / map.flMapWidth

theorem lt_rounds_iff : k < rounds map dataSize ↔ k * map.flMapWidth < dataSize.toInt.toNat := by
  have hw := map.width_pos
  unfold rounds
  rw [Nat.lt_iff_add_one_le, Nat.le_div_iff_mul_le hw, Nat.succ_mul]
  omega

/-- The loop from unit `k` on. -/
def verifyFrom (map : FlMap) (m : Space) (str : List UInt8) (isbusy : ℕ → Busy)
    (flBase dataBase dataSize verbose : BitVec 32) (k : ℕ) (ok : ℤ) : Option ℤ :=
  verifyLoop map m str isbusy dataSize verbose (k * map.flMapWidth) (unitAt map flBase k)
    (unitAt map dataBase k) ok

theorem verifyFrom_end (hk : ¬ k < rounds map dataSize) :
    verifyFrom map m str isbusy flBase dataBase dataSize verbose k ok = some ok := by
  rw [lt_rounds_iff] at hk
  rw [verifyFrom, verifyLoop, if_neg hk]

/-- A round. -/
theorem verifyFrom_step (hbus : map.flMapBus ≠ .bus16On64) (h : Aligned map flBase dataBase)
    (hk : k < rounds map dataSize) :
    verifyFrom map m str isbusy flBase dataBase dataSize verbose k ok =
      if verbose.getLsbD 0 ∧ ¬ UnitAgrees map m flBase dataBase k then
        some (offerErase str isbusy)
      else
        verifyFrom map m str isbusy flBase dataBase dataSize verbose (k + 1)
          (if UnitAgrees map m flBase dataBase k then 1 else 0) := by
  rw [lt_rounds_iff] at hk
  rw [verifyFrom, verifyLoop, if_pos hk, compareUnit_eq hbus h]
  simp only [Option.elim_some, decide_eq_true_eq, unitAt_succ, ← Nat.succ_mul]
  by_cases hagrees : UnitAgrees map m flBase dataBase k
  · simp [hagrees, verifyFrom]
  · simp [hagrees, verifyFrom]

/-- **In quiet mode** the last unit decides. -/
theorem verifyLoop_quiet (hbus : map.flMapBus ≠ .bus16On64) (h : Aligned map flBase dataBase)
    (hquiet : verbose.getLsbD 0 = false) (hk : k < rounds map dataSize) :
    verifyFrom map m str isbusy flBase dataBase dataSize verbose k ok =
      some (if UnitAgrees map m flBase dataBase (rounds map dataSize - 1) then 1 else 0) := by
  obtain ⟨d, hd⟩ : ∃ d, rounds map dataSize = k + (d + 1) :=
    ⟨rounds map dataSize - k - 1, by omega⟩
  induction d generalizing k ok with
  | zero =>
    have hlast : rounds map dataSize - 1 = k := by omega
    rw [verifyFrom_step hbus h hk, hquiet, verifyFrom_end (by omega), hlast]
    simp
  | succ d ih =>
    rw [verifyFrom_step hbus h hk, hquiet, ih (by omega) (by omega)]
    simp

/-- **In verbose mode** the first difference ends the loop. -/
theorem verifyLoop_verbose (hbus : map.flMapBus ≠ .bus16On64) (h : Aligned map flBase dataBase)
    (hverbose : verbose.getLsbD 0 = true)
    (hdiffers : ∃ l, k ≤ l ∧ l < rounds map dataSize ∧ ¬ UnitAgrees map m flBase dataBase l) :
    verifyFrom map m str isbusy flBase dataBase dataSize verbose k ok =
      some (offerErase str isbusy) := by
  obtain ⟨l, hkl, hl, hunit⟩ := hdiffers
  obtain ⟨d, rfl⟩ := Nat.exists_eq_add_of_le hkl
  induction d generalizing k ok with
  | zero =>
    rw [verifyFrom_step hbus h (by omega), if_pos ⟨hverbose, hunit⟩]
  | succ d ih =>
    rw [verifyFrom_step hbus h (by omega)]
    split
    · rfl
    · apply ih (by omega)
      · rwa [show k + 1 + d = k + (d + 1) by omega]
      · rwa [show k + 1 + d = k + (d + 1) by omega]

/-- With no difference the last comparison is a success in both modes. -/
theorem verifyLoop_agrees (hbus : map.flMapBus ≠ .bus16On64) (h : Aligned map flBase dataBase)
    (hk : k < rounds map dataSize)
    (hagrees : ∀ l, k ≤ l → l < rounds map dataSize → UnitAgrees map m flBase dataBase l) :
    verifyFrom map m str isbusy flBase dataBase dataSize verbose k ok = some 1 := by
  obtain ⟨d, hd⟩ : ∃ d, rounds map dataSize = k + (d + 1) :=
    ⟨rounds map dataSize - k - 1, by omega⟩
  induction d generalizing k ok with
  | zero =>
    rw [verifyFrom_step hbus h hk, verifyFrom_end (by omega)]
    simp [hagrees k (Nat.le_refl k) hk]
  | succ d ih =>
    rw [verifyFrom_step hbus h hk, if_neg]
    · apply ih (by omega) _ (by omega)
      intro l hlo hhi
      exact hagrees l (by omega) hhi
    · intro hdiffers
      exact hdiffers.2 (hagrees k (Nat.le_refl k) hk)

/-- For a bus that the switch does not name, `ok` is never set by a comparison. -/
theorem verifyLoop_unset (hbus : map.flMapBus = .bus16On64) :
    verifyFrom map m str isbusy flBase dataBase dataSize verbose k ok =
      some (if k < rounds map dataSize ∧ verbose.getLsbD 0 ∧ ok = 0 then offerErase str isbusy
        else ok) := by
  have hcompare : compareUnit map m (unitAt map flBase k) (unitAt map dataBase k) = some none := by
    unfold compareUnit
    rw [hbus]
  obtain ⟨d, hd⟩ : ∃ d, rounds map dataSize - k = d := ⟨_, rfl⟩
  induction d generalizing k with
  | zero =>
    have hend : ¬ k < rounds map dataSize := by omega
    rw [verifyFrom_end hend, if_neg fun hand => hend hand.1]
  | succ d ih =>
    have hk : k < rounds map dataSize := by omega
    have hround := lt_rounds_iff.mp hk
    rw [verifyFrom, verifyLoop, if_pos hround, hcompare]
    simp only [Option.elim_none, unitAt_succ, ← Nat.succ_mul]
    by_cases hstop : verbose.getLsbD 0 ∧ ok = 0
    · rw [if_pos hstop, if_pos ⟨hk, hstop⟩]
    · rw [if_neg hstop, if_neg fun hand => hstop hand.2]
      have hrest := ih (k := k + 1)
        (by unfold compareUnit; rw [hbus]) (by omega)
      rw [verifyFrom, if_neg fun hand => hstop hand.2] at hrest
      exact hrest

/-! ## §5 When the result is right -/

/-- The range in flash memory is the range in memory. -/
def RangeAgrees (map : FlMap) (m : Space) (flBase dataBase dataSize : BitVec 32) : Prop :=
  ∀ i < dataSize.toInt.toNat, AgreesAt map m flBase dataBase i

/-- Success is reported. -/
def Succeeds : Option ℤ → Prop
  | none => False
  | some ok => 0 < ok

/-- There is such a range in flash memory, and it is the range in memory. -/
def Verified (known : FlMap → Option FlDevice) (maps : List FlMap) (m : Space)
    (flBase dataBase dataSize : BitVec 32) : Prop :=
  ∃ map dev, flDevident known maps flBase = some (map, dev) ∧
    Accepted map flBase dataBase dataSize ∧ 0 ≤ dataSize.toInt ∧
    RangeAgrees map m flBase dataBase dataSize

/-- The user wants the chip to be erased, and it is busy until the limit. -/
def StillBusy (str : List UInt8) (isbusy : ℕ → Busy) : Prop :=
  (str.head? = some 121 ∨ str.head? = some 89) ∧ ∀ t ≤ pflashMaxTimeout, isbusy t = .busy

theorem offerErase_pos : 0 < offerErase str isbusy ↔ StillBusy str isbusy := by
  have hcode : ∀ answer : Busy, 0 < answer.code ↔ answer = .busy := by
    intro answer
    cases answer <;> decide
  unfold offerErase StillBusy
  split
  next hwants =>
    rw [hcode, waitBusy_eq_busy_iff (Nat.zero_le _)]
    simp [hwants]
  next hwants => simp [hwants]

/-- When the result for an accepted range is right. -/
structure VerifyHolds (map : FlMap) (m : Space) (str : List UInt8) (isbusy : ℕ → Busy) (ok : ℤ)
    (flBase dataBase dataSize verbose : BitVec 32) : Prop where
  /-- With no round the result is what `ok` happened to hold. -/
  empty : dataSize.toInt ≤ 0 → (0 < ok ↔ dataSize.toInt = 0)
  /-- So it is for a bus that is not named. -/
  unnamed : 0 < dataSize.toInt → map.flMapBus = .bus16On64 →
    ((if verbose.getLsbD 0 ∧ ok = 0 then StillBusy str isbusy else 0 < ok) ↔
      RangeAgrees map m flBase dataBase dataSize)
  /-- Where a load traps, the ranges differ. -/
  trap : 0 < dataSize.toInt → ¬ Aligned map flBase dataBase →
    ¬ RangeAgrees map m flBase dataBase dataSize
  /-- Ranges that differ do so in the last unit. -/
  quiet_differs : 0 < dataSize.toInt → map.flMapBus ≠ .bus16On64 →
    Aligned map flBase dataBase → verbose.getLsbD 0 = false →
    ¬ RangeAgrees map m flBase dataBase dataSize →
    ¬ UnitAgrees map m flBase dataBase (rounds map dataSize - 1)
  /-- What the last unit has behind the end of equal ranges, is equal. -/
  quiet_beyond : 0 < dataSize.toInt → map.flMapBus ≠ .bus16On64 →
    Aligned map flBase dataBase → verbose.getLsbD 0 = false →
    RangeAgrees map m flBase dataBase dataSize →
    UnitAgrees map m flBase dataBase (rounds map dataSize - 1)
  /-- Ranges that differ do so in a unit, and no chip is left busy. -/
  verbose_differs : 0 < dataSize.toInt → map.flMapBus ≠ .bus16On64 →
    Aligned map flBase dataBase → verbose.getLsbD 0 = true →
    ¬ RangeAgrees map m flBase dataBase dataSize →
    (∃ k < rounds map dataSize, ¬ UnitAgrees map m flBase dataBase k) ∧ ¬ StillBusy str isbusy
  /-- What the units have behind the end of equal ranges, is equal. -/
  verbose_beyond : 0 < dataSize.toInt → map.flMapBus ≠ .bus16On64 →
    Aligned map flBase dataBase → verbose.getLsbD 0 = true →
    RangeAgrees map m flBase dataBase dataSize →
    (∀ k < rounds map dataSize, UnitAgrees map m flBase dataBase k) ∨ StillBusy str isbusy

theorem verifyFrom_zero :
    verifyFrom map m str isbusy flBase dataBase dataSize verbose 0 ok =
      verifyLoop map m str isbusy dataSize verbose 0 flBase dataBase ok := by
  simp [verifyFrom, unitAt]

theorem rounds_pos (h : 0 < dataSize.toInt) : 0 < rounds map dataSize := by
  rw [lt_rounds_iff]
  omega

/-- What the loop reports in verbose mode. -/
theorem succeeds_verbose (hsize : 0 < dataSize.toInt) (hbus : map.flMapBus ≠ .bus16On64)
    (h : Aligned map flBase dataBase) (hverbose : verbose.getLsbD 0 = true) :
    Succeeds (verifyLoop map m str isbusy dataSize verbose 0 flBase dataBase ok) ↔
      (∀ k < rounds map dataSize, UnitAgrees map m flBase dataBase k) ∨ StillBusy str isbusy := by
  rw [← verifyFrom_zero]
  by_cases hall : ∀ k < rounds map dataSize, UnitAgrees map m flBase dataBase k
  · rw [verifyLoop_agrees hbus h (rounds_pos hsize) fun l _ hl => hall l hl]
    exact iff_of_true Int.one_pos (Or.inl hall)
  · obtain ⟨l, hl, hunit⟩ : ∃ l < rounds map dataSize, ¬ UnitAgrees map m flBase dataBase l := by
      simpa using hall
    rw [verifyLoop_verbose hbus h hverbose ⟨l, Nat.zero_le l, hl, hunit⟩, Succeeds, offerErase_pos]
    simp [hall]

/-- What the loop reports in quiet mode. -/
theorem succeeds_quiet (hsize : 0 < dataSize.toInt) (hbus : map.flMapBus ≠ .bus16On64)
    (h : Aligned map flBase dataBase) (hquiet : verbose.getLsbD 0 = false) :
    Succeeds (verifyLoop map m str isbusy dataSize verbose 0 flBase dataBase ok) ↔
      UnitAgrees map m flBase dataBase (rounds map dataSize - 1) := by
  rw [← verifyFrom_zero, verifyLoop_quiet hbus h hquiet (rounds_pos hsize), Succeeds]
  split
  next hlast => simp [hlast]
  next hlast => simp [hlast]

/-- What it reports for a bus that is not named. -/
theorem succeeds_unnamed (hsize : 0 < dataSize.toInt) (hbus : map.flMapBus = .bus16On64) :
    Succeeds (verifyLoop map m str isbusy dataSize verbose 0 flBase dataBase ok) ↔
      if verbose.getLsbD 0 ∧ ok = 0 then StillBusy str isbusy else 0 < ok := by
  rw [← verifyFrom_zero, verifyLoop_unset hbus, Succeeds]
  by_cases hstop : verbose.getLsbD 0 ∧ ok = 0
  · rw [if_pos ⟨rounds_pos hsize, hstop⟩, if_pos hstop, offerErase_pos]
  · rw [if_neg fun hand => hstop hand.2, if_neg hstop]

/-- An accepted range. -/
theorem verifyLoop_exact :
    (Succeeds (verifyLoop map m str isbusy dataSize verbose 0 flBase dataBase ok) ↔
      0 ≤ dataSize.toInt ∧ RangeAgrees map m flBase dataBase dataSize) ↔
      VerifyHolds map m str isbusy ok flBase dataBase dataSize verbose := by
  by_cases hempty : dataSize.toInt ≤ 0
  · -- no round
    have hnone : ¬ 0 < rounds map dataSize := by
      rw [lt_rounds_iff]
      omega
    have hrange : RangeAgrees map m flBase dataBase dataSize := by
      intro i hi
      omega
    have hzero : (0 ≤ dataSize.toInt ∧ RangeAgrees map m flBase dataBase dataSize) ↔
        dataSize.toInt = 0 := by
      simp only [hrange, and_true]
      omega
    have hpos : ¬ 0 < dataSize.toInt := by omega
    rw [← verifyFrom_zero, verifyFrom_end hnone, hzero, Succeeds]
    constructor
    · intro hright
      constructor
      case empty => exact fun _ => hright
      all_goals
        intro hsize
        exact absurd hsize hpos
    · intro hholds
      exact hholds.empty hempty
  · have hsize : 0 < dataSize.toInt := by omega
    have hnonneg : 0 ≤ dataSize.toInt := by omega
    simp only [hnonneg, true_and]
    constructor
    · intro hright
      constructor
      case empty => exact fun hle => absurd hle hempty
      case unnamed =>
        intro _ hbus
        rw [← hright, succeeds_unnamed hsize hbus]
      case trap =>
        intro _ htrap hrange
        have hsucceeds := hright.mpr hrange
        rw [verifyLoop, if_pos (by omega), compareUnit_trap htrap] at hsucceeds
        exact hsucceeds
      case quiet_differs =>
        intro _ hbus haligned hquiet hdiffers hlast
        exact hdiffers (hright.mp ((succeeds_quiet hsize hbus haligned hquiet).mpr hlast))
      case quiet_beyond =>
        intro _ hbus haligned hquiet hrange
        exact (succeeds_quiet hsize hbus haligned hquiet).mp (hright.mpr hrange)
      case verbose_differs =>
        intro _ hbus haligned hverbose hdiffers
        have hfails : ¬ ((∀ k < rounds map dataSize, UnitAgrees map m flBase dataBase k) ∨
            StillBusy str isbusy) := by
          intro hreports
          exact hdiffers (hright.mp ((succeeds_verbose hsize hbus haligned hverbose).mpr hreports))
        simpa using hfails
      case verbose_beyond =>
        intro _ hbus haligned hverbose hrange
        exact (succeeds_verbose hsize hbus haligned hverbose).mp (hright.mpr hrange)
    · intro hholds
      by_cases hbus : map.flMapBus = .bus16On64
      · rw [succeeds_unnamed hsize hbus, hholds.unnamed hsize hbus]
      · by_cases haligned : Aligned map flBase dataBase
        · cases hmode : verbose.getLsbD 0 with
          | false =>
            rw [succeeds_quiet hsize hbus haligned hmode]
            constructor
            · intro hlast
              by_contra hdiffers
              exact hholds.quiet_differs hsize hbus haligned hmode hdiffers hlast
            · exact hholds.quiet_beyond hsize hbus haligned hmode
          | true =>
            rw [succeeds_verbose hsize hbus haligned hmode]
            constructor
            · intro hreports
              by_contra hdiffers
              obtain ⟨⟨k, hk, hunit⟩, hidle⟩ :=
                hholds.verbose_differs hsize hbus haligned hmode hdiffers
              rcases hreports with hall | hbusy
              · exact hunit (hall k hk)
              · exact hidle hbusy
            · exact hholds.verbose_beyond hsize hbus haligned hmode
        · have htrap := hholds.trap hsize haligned
          rw [verifyLoop, if_pos (by omega), compareUnit_trap haligned]
          simp [Succeeds, htrap]

/-- **When success is reported exactly for equal ranges.** -/
theorem flVerifyDevice_exact (known : FlMap → Option FlDevice) (maps : List FlMap) (m : Space)
    (str : List UInt8) (isbusy : ℕ → Busy) (ok : ℤ) (flBase dataBase dataSize verbose : BitVec 32) :
    (Succeeds (flVerifyDevice known maps m str isbusy ok flBase dataBase dataSize verbose) ↔
      Verified known maps m flBase dataBase dataSize) ↔
      ∀ map dev, flDevident known maps flBase = some (map, dev) →
        Accepted map flBase dataBase dataSize →
        VerifyHolds map m str isbusy ok flBase dataBase dataSize verbose := by
  unfold flVerifyDevice Verified
  cases hfound : flDevident known maps flBase with
  | none => simp [Succeeds]
  | some found =>
    obtain ⟨map, dev⟩ := found
    by_cases haccepted : Accepted map flBase dataBase dataSize
    · have hverified : (∃ map' dev', some (map, dev) = some (map', dev') ∧
          Accepted map' flBase dataBase dataSize ∧ 0 ≤ dataSize.toInt ∧
          RangeAgrees map' m flBase dataBase dataSize) ↔
          0 ≤ dataSize.toInt ∧ RangeAgrees map m flBase dataBase dataSize := by
        constructor
        · rintro ⟨map', dev', hsame, -, hrange⟩
          cases hsame
          exact hrange
        · intro hrange
          exact ⟨map, dev, rfl, haccepted, hrange⟩
      simp only [if_pos haccepted]
      rw [hverified, verifyLoop_exact]
      constructor
      · intro hholds map' dev' hsame _
        cases hsame
        exact hholds
      · intro hholds
        exact hholds map dev rfl haccepted
    · simp [haccepted, Succeeds]

/-- One map of 16 bytes on an 8 bit bus. -/
def smallMap : FlMap where
  flMapBase := 0xbfc00000
  flMapSize := 16
  flMapWidth := 1
  flMapChips := 1
  flMapBus := .bus8
  flMapOffset := 0
  width_pos := by decide
  chips_pos := by decide
  end_le := by decide
  size_lt := by decide

/-- Memory of zeros with one other byte. -/
def oneByte : Space := fun a => if a = 0x80100000 then 1 else 0

/-- In quiet mode a difference before the last byte is not reported. -/
theorem flVerifyDevice_quiet :
    ¬ (Succeeds (flVerifyDevice (fun _ => some ⟨16, none⟩) [smallMap] oneByte [] (fun _ => .done) 0
        0xbfc00000 0x80100000 2 0) ↔
      Verified (fun _ => some ⟨16, none⟩) [smallMap] oneByte 0xbfc00000 0x80100000 2) := by
  have hfound : flDevident (fun _ => some ⟨16, none⟩) [smallMap] 0xbfc00000 =
      some (smallMap, ⟨16, none⟩) := rfl
  have haccepted : Accepted smallMap 0xbfc00000 0x80100000 2 := by decide
  have haligned : Aligned smallMap 0xbfc00000 0x80100000 := trivial
  have hlast : UnitAgrees smallMap oneByte 0xbfc00000 0x80100000 (rounds smallMap 2 - 1) := by
    decide
  have hsucceeds : Succeeds (flVerifyDevice (fun _ => some ⟨16, none⟩) [smallMap] oneByte []
      (fun _ => .done) 0 0xbfc00000 0x80100000 2 0) := by
    unfold flVerifyDevice
    rw [hfound]
    simp only [if_pos haccepted]
    exact (succeeds_quiet (by decide) (by decide) haligned (by decide)).mpr hlast
  intro hright
  obtain ⟨map, dev, hsame, -, -, hrange⟩ := hright.mp hsucceeds
  rw [hfound] at hsame
  cases hsame
  exact absurd (hrange 0 (by decide)) (by decide)

end Pmon.Flash
