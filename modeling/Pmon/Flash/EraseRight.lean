import Pmon.Flash.Erase
import Pmon.Lib.Masks
import Pmon.Lib.Packing

/-!
# When the right sectors are erased

The mask to which a base is rounded is the size of a sector only if the width of the bus is the
square of the number of chips, and for sectors of different sizes the search stops behind the sector
that a base is in.  Where neither matters, the sectors of the range are erased, and success tells
that they are unless a failure is followed by a success.

## Key results

- `eraseLoop_right`: the loop over the sectors of a range.
- `eraseFound_course`: the range is rounded to its sectors.
- `flDevice_right`: erasing and programming.
-/

namespace Pmon.Flash

open Lib

/-! ## §1 What is asked for -/

variable {map : FlMap} {dev : FlDevice} {steps : BitVec 32 → Step} {base size : BitVec 32} {ok : ℤ}

/-- Where the range begins in the device. -/
def rangeStart (map : FlMap) (base : BitVec 32) : ℕ :=
  (base - map.flMapBase).toNat + map.flMapOffset

/-- Where it ends. -/
def rangeEnd (map : FlMap) (base size : BitVec 32) : ℕ :=
  rangeStart map base + size.toInt.toNat

/-- Sector `q` meets the range. -/
def Touched (map : FlMap) (dev : FlDevice) (base size : BitVec 32) (q : ℕ) : Prop :=
  SpanMeets (secLen map dev) (rangeStart map base) (rangeEnd map base size) q

/-- The range ends in the map. -/
def InMap (map : FlMap) (base size : BitVec 32) : Prop :=
  (base - map.flMapBase).toNat + size.toInt.toNat ≤ map.flMapSize

instance (map : FlMap) (base size : BitVec 32) : Decidable (InMap map base size) :=
  inferInstanceAs (Decidable (_ ≤ _))

/-- A command at offset `o` in the map is for sector `q`. -/
def Selects (map : FlMap) (dev : FlDevice) (o : BitVec 32) (q : ℕ) : Prop :=
  o.toNat < map.flMapSize ∧ ∃ r, Within (secLen map dev) (o.toNat + map.flMapOffset) q r

/-- **What a call does is right.** -/
structure EraseRight (map : FlMap) (dev : FlDevice) (steps : BitVec 32 → Step)
    (base size : BitVec 32) (r : Erasure) : Prop where
  /-- The commands are for sectors of the range, in the map. -/
  none_else : ∀ o ∈ r.tried, ∃ q, Selects map dev o q ∧ Touched map dev base size q
  /-- All of them are erased, as long as the device does its part. -/
  all : (∀ o ∈ r.tried, (steps o).accepted = true) → InMap map base size →
    ∀ q, Touched map dev base size q → ∃ o ∈ r.tried, Selects map dev o q
  /-- Success tells that every step succeeded. -/
  success : r.result = some 0 → ∀ o ∈ r.tried, (steps o).Succeeds

/-- Success of the step for the last sector of the range tells that all steps succeeded. -/
def LastTells (map : FlMap) (dev : FlDevice) (steps : BitVec 32 → Step) (base size : BitVec 32) :
    Prop :=
  (∀ j, Touched map dev base size j → (steps (sectorAt map dev j)).accepted = true) →
    ∀ l, Touched map dev base size l → (∀ j, Touched map dev base size j → j ≤ l) →
      (steps (sectorAt map dev l)).answer = .done →
        ∀ j, Touched map dev base size j → (steps (sectorAt map dev j)).answer = .done

/-! ## §2 The loop -/

theorem answer_code_eq_zero_iff {b : Busy} : b.code = 0 ↔ b = .done := by
  cases b <;> decide

/-- There is a last sector. -/
theorem exists_last {ℓ : ℕ → ℕ} {q hi : ℕ} (hq : spanStart ℓ q < hi)
    (hpos : ∀ j, spanStart ℓ j < hi → 0 < ℓ j) :
    ∃ l, q ≤ l ∧ spanStart ℓ l < hi ∧ hi ≤ spanStart ℓ (l + 1) := by
  induction hrest : hi - spanStart ℓ q using Nat.strong_induction_on generalizing q with
  | h n ih =>
    have hstart := spanStart_succ ℓ q
    have := hpos q hq
    by_cases hnext : spanStart ℓ (q + 1) < hi
    · obtain ⟨l, hle, hl, hlast⟩ := ih _ (by omega) hnext rfl
      exact ⟨l, Nat.le_of_succ_le hle, hl, hlast⟩
    · exact ⟨q, Nat.le_refl q, hq, by omega⟩

variable {q block hi r : ℕ} {base' size' : BitVec 32}

/-- **The loop over the sectors of a range.** It may go on up to `hi`, where no other sector
    begins. -/
theorem eraseLoop_right (hin : InStep map dev hi q block base' size')
    (hwithin : Within (secLen map dev) (rangeStart map base) q r)
    (hpos : 0 < size.toInt) (hmap : InMap map base size)
    (hhi : ∀ j, spanStart (secLen map dev) j < hi ↔
      spanStart (secLen map dev) j < rangeEnd map base size) :
    EraseRight map dev steps base size (eraseLoop map dev steps block base' size' ok) ↔
      LastTells map dev steps base size := by
  have hrange : rangeStart map base < rangeEnd map base size := by
    unfold rangeEnd
    omega
  have hahead : ∀ j, Touched map dev base size j ↔ Ahead map dev hi q j := by
    intro j
    unfold Touched Ahead
    rw [spanMeets_from hwithin hrange, ← hhi]
    constructor
    · rintro ⟨hle, hbegin, -⟩
      exact ⟨hle, hbegin⟩
    · rintro ⟨hle, hbegin⟩
      exact ⟨hle, hbegin, hin.len_pos j hbegin⟩
  have hq : spanStart (secLen map dev) q < hi := by
    rw [hhi]
    have := hwithin.eq
    omega
  -- the sector at which a command is given
  have hselects : ∀ j, Ahead map dev hi q j → Selects map dev (sectorAt map dev j) j := by
    intro j hj
    have hbegin := (hhi j).mp hj.2
    have hoffset : map.flMapOffset ≤ spanStart (secLen map dev) j :=
      Nat.le_trans hin.offset_le (spanStart_mono hj.1)
    have hsize := map.size_lt
    unfold rangeEnd rangeStart at hbegin
    unfold InMap at hmap
    have hnat : (sectorAt map dev j).toNat =
        spanStart (secLen map dev) j - map.flMapOffset := by
      rw [sectorAt, BitVec.toNat_ofNat]
      exact Nat.mod_eq_of_lt (by omega)
    refine ⟨by omega, 0, ⟨?_, hin.len_pos j hj.2⟩⟩
    omega
  have htried : ∀ o, o ∈ (eraseLoop map dev steps block base' size' ok).tried ↔
      ∃ j, Ahead map dev hi q j ∧ o = sectorAt map dev j ∧
        ∀ i, q ≤ i → i < j → (steps (sectorAt map dev i)).accepted = true :=
    fun o => eraseLoop_tried hin o
  -- if all commands are accepted, they are given for all sectors
  have hall : (∀ o ∈ (eraseLoop map dev steps block base' size' ok).tried,
      (steps o).accepted = true) → ∀ j, Ahead map dev hi q j →
        sectorAt map dev j ∈ (eraseLoop map dev steps block base' size' ok).tried := by
    intro haccepted j hj
    induction j using Nat.strong_induction_on with
    | h j ih =>
      rw [htried]
      refine ⟨j, hj, rfl, ?_⟩
      intro i hlo hlt
      apply haccepted
      apply ih i hlt
      exact ⟨hlo, Nat.lt_of_le_of_lt (spanStart_mono (Nat.le_of_lt hlt)) hj.2⟩
  obtain ⟨l, hle, hl, hlast⟩ := exists_last hq hin.len_pos
  have hlahead : Ahead map dev hi q l := ⟨hle, hl⟩
  have hmax : ∀ j, Ahead map dev hi q j → j ≤ l := by
    intro j hj
    by_contra hafter
    have := spanStart_mono (ℓ := secLen map dev) (show l + 1 ≤ j by omega)
    have := hj.2
    omega
  constructor
  · intro hright haccepted l' hl' hmax' hdone j hj
    obtain rfl : l' = l :=
      Nat.le_antisymm (hmax l' ((hahead l').mp hl')) (hmax' l ((hahead l).mpr hlahead))
    have hacc : ∀ j, Ahead map dev hi q j → (steps (sectorAt map dev j)).accepted = true :=
      fun j hj => haccepted j ((hahead j).mpr hj)
    have hresult : (eraseLoop map dev steps block base' size' ok).result = _ :=
      eraseLoop_result hin hlahead hlast hacc
    rw [answer_code_eq_zero_iff.mpr hdone] at hresult
    refine (hright.success hresult (sectorAt map dev j) ?_).2
    rw [htried]
    refine ⟨j, (hahead j).mp hj, rfl, ?_⟩
    intro i hlo hlt
    exact hacc i ⟨hlo, Nat.lt_of_le_of_lt (spanStart_mono (Nat.le_of_lt hlt)) ((hahead j).mp hj).2⟩
  · intro htells
    constructor
    case none_else =>
      intro o ho
      obtain ⟨j, hj, rfl, -⟩ := (htried o).mp ho
      exact ⟨j, hselects j hj, (hahead j).mpr hj⟩
    case all =>
      intro haccepted _ j hj
      have hj := (hahead j).mp hj
      exact ⟨_, hall haccepted j hj, hselects j hj⟩
    case success =>
      intro hresult
      have haccepted : ∀ j, Ahead map dev hi q j →
          (steps (sectorAt map dev j)).accepted = true := by
        by_contra hrejected
        obtain ⟨j, hj, hno⟩ : ∃ j, Ahead map dev hi q j ∧
            (steps (sectorAt map dev j)).accepted = false := by
          simpa using hrejected
        rw [eraseLoop_rejected hin ⟨j, hj, hno⟩] at hresult
        cases hresult
      rw [eraseLoop_result hin hlahead hlast haccepted] at hresult
      have hdone := answer_code_eq_zero_iff.mp (Option.some.inj hresult)
      intro o ho
      obtain ⟨j, hj, rfl, -⟩ := (htried o).mp ho
      refine ⟨haccepted j hj, ?_⟩
      exact htells (fun j hj => haccepted j ((hahead j).mp hj)) l ((hahead l).mpr hlahead)
        (fun j hj => hmax j ((hahead j).mp hj)) hdone j ((hahead j).mpr hj)

/-! ## §3 The rounded range -/

theorem not_touched (h : ¬ 0 < size.toInt) (q : ℕ) : ¬ Touched map dev base size q := by
  rintro ⟨n, -, -, hlo, hhi⟩
  unfold rangeEnd at hhi
  omega

/-- A call that does nothing, where there is nothing to do or it does not fit. -/
theorem right_nothing {result : Option ℤ} (h : ¬ (0 < size.toInt ∧ InMap map base size)) :
    EraseRight map dev steps base size ⟨[], result⟩ ↔
      (InMap map base size → LastTells map dev steps base size) := by
  have hempty : InMap map base size → ∀ q, ¬ Touched map dev base size q :=
    fun hmap => not_touched fun hpos => h ⟨hpos, hmap⟩
  apply iff_of_true
  · constructor
    case none_else => exact fun o ho => absurd ho List.not_mem_nil
    case all => exact fun _ hmap q hq => absurd hq (hempty hmap q)
    case success => exact fun _ o ho => absurd ho List.not_mem_nil
  · intro hmap _ l hl
    exact absurd hl (hempty hmap l)

/-- A call goes over the sectors of the range, or does nothing if there is nothing to do or the
    range does not fit. -/
inductive Course (map : FlMap) (dev : FlDevice) (steps : BitVec 32 → Step) (ok : ℤ)
    (base size : BitVec 32) : Erasure → Prop where
  | loop {hi q r block : ℕ} {base' size' : BitVec 32}
      (hin : InStep map dev hi q block base' size')
      (hwithin : Within (secLen map dev) (rangeStart map base) q r)
      (hpos : 0 < size.toInt) (hmap : InMap map base size)
      (hhi : ∀ j, spanStart (secLen map dev) j < hi ↔
        spanStart (secLen map dev) j < rangeEnd map base size) :
      Course map dev steps ok base size (eraseLoop map dev steps block base' size' ok)
  | nothing {result : Option ℤ} (h : ¬ (0 < size.toInt ∧ InMap map base size)) :
      Course map dev steps ok base size ⟨[], result⟩

/-- **Such a call is right** as far as its status is. -/
theorem Course.right {r : Erasure} (h : Course map dev steps ok base size r) :
    EraseRight map dev steps base size r ↔
      (InMap map base size → LastTells map dev steps base size) := by
  cases h with
  | loop hin hwithin hpos hmap hhi =>
    rw [eraseLoop_right hin hwithin hpos hmap hhi]
    exact ⟨fun htells _ => htells, fun htells => htells hmap⟩
  | nothing hnot => exact right_nothing hnot

/-- A device that does its part lets it succeed. -/
theorem Course.succeeds {r : Erasure} (h : Course map dev steps ok base size r)
    (hsteps : ∀ o, (steps o).Succeeds) (hpos : 0 < size.toInt) (hmap : InMap map base size) :
    r.result = some 0 := by
  cases h with
  | @loop hi q r block base' size' hin hwithin _ _ hhi =>
    have hq : spanStart (secLen map dev) q < hi := by
      rw [hhi, rangeEnd]
      have := hwithin.eq
      omega
    obtain ⟨l, hle, hl, hlast⟩ := exists_last hq hin.len_pos
    rw [eraseLoop_result hin ⟨hle, hl⟩ hlast fun _ _ => (hsteps _).1, (hsteps _).2]
    rfl
  | nothing hnot => exact absurd ⟨hpos, hmap⟩ hnot

/-- What is rounded, if the call is not refused. -/
theorem roundBase_eq (mask : BitVec 32) :
    roundBase map mask base size =
      if base &&& mask = 0 ∧ map.flMapSize < (size + (base - map.flMapBase)).toNat then none
      else some (base &&& ~~~mask, size + (base &&& mask)) := by
  have hsplit := toNat_and_add_and_not base mask
  unfold roundBase
  by_cases haligned : base &&& mask = 0
  · have hbase : base &&& ~~~mask = base := by
      apply BitVec.eq_of_toNat_eq
      rw [haligned] at hsplit
      simpa using hsplit
    simp [haligned, hbase]
  · simp only [haligned, ne_eq, not_false_eq_true, if_true, false_and, if_false]

theorem toNat_offset (hcontains : map.Contains base) :
    base.toNat = map.flMapBase.toNat + (base - map.flMapBase).toNat ∧
      (base - map.flMapBase).toNat < map.flMapSize := by
  obtain ⟨hlo, hhi⟩ := hcontains
  rw [BitVec.toNat_sub_of_le (by rwa [BitVec.le_def])]
  omega

/-- A range that is refused does not fit. -/
theorem not_inMap_of_refused (hcontains : map.Contains base)
    (h : map.flMapSize < (size + (base - map.flMapBase)).toNat) :
    ¬ (0 < size.toInt ∧ InMap map base size) := by
  rintro ⟨hpos, hmap⟩
  have hoffset := (toNat_offset hcontains).2
  have hsize := map.size_lt
  have hnat : size.toInt = size.toNat := by
    have := BitVec.toInt_eq_toNat_cond size
    have := size.isLt
    omega
  unfold InMap at hmap
  rw [BitVec.toNat_add] at h
  omega

/-- One that is not refused fits. -/
theorem inMap_of_accepted (hpos : 0 < size.toInt)
    (hcontains : map.Contains base) (h : ¬ map.flMapSize < (size + (base - map.flMapBase)).toNat) :
    InMap map base size := by
  have hoffset := (toNat_offset hcontains).2
  have hsize := map.size_lt
  have hlt := BitVec.toInt_lt (x := size)
  have hnat : size.toInt = size.toNat := by
    have := BitVec.toInt_eq_toNat_cond size
    have := size.isLt
    omega
  unfold InMap
  rw [BitVec.toNat_add] at h
  omega

/-- Sectors of one size, the size to which a base is rounded. -/
structure UniformGrid (map : FlMap) (dev : FlDevice) (base size : BitVec 32) : Prop where
  sector : ∃ k, dev.flSecsize * map.flMapChips = 2 ^ k
  mask : dev.flSecsize * map.flMapWidth / map.flMapChips = dev.flSecsize * map.flMapChips
  base_dvd : dev.flSecsize * map.flMapChips ∣ map.flMapBase.toNat
  offset_dvd : dev.flSecsize * map.flMapChips ∣ map.flMapOffset
  size_le : map.flMapSize + dev.flSecsize * map.flMapChips ≤ 2147483648
  /-- The end of the range is not checked unless its base is aligned. -/
  misaligned : base.toNat % (dev.flSecsize * map.flMapChips) ≠ 0 →
    0 < size.toInt ∧ InMap map base size ∨
      size.toInt + (base.toNat % (dev.flSecsize * map.flMapChips) : ℕ) ≤ 0

/-- The table of sectors, and a base at which one of them begins. -/
structure VarGrid (map : FlMap) (dev : FlDevice) (sizes : List ℕ) (base : BitVec 32) : Prop where
  begins : ∃ q s, sizes[q]? = some s ∧ rangeStart map base = spanStart (secLen map dev) q ∧
    base &&& secMask map s = 0
  pos : ∀ s ∈ sizes, 0 < s
  lt : ∀ s ∈ sizes, s * map.flMapChips < 2147483648
  covers : map.flMapOffset + map.flMapSize ≤ spanStart (secLen map dev) sizes.length

/-- The range can be rounded as it is. -/
def OnGrid (map : FlMap) (dev : FlDevice) (base size : BitVec 32) : Prop :=
  match dev.flVarsecsize with
  | none => UniformGrid map dev base size
  | some sizes => VarGrid map dev sizes base

/-- Rounding up what is not positive. -/
theorem roundUp_not_pos {m x : BitVec 32} {k : ℕ} (hm : m.toNat = 2 ^ k) (hlt : m.toNat < 2 ^ 31)
    (hx : x.toInt ≤ 0) : ¬ 0 < ((x + (m - 1)) &&& ~~~(m - 1)).toInt := by
  have hround := toNat_and_not_sub_one hm (x + (m - 1))
  have hpos : 0 < m.toNat := hm ▸ Nat.two_pow_pos k
  have hsub : (m - 1).toNat = m.toNat - 1 := by
    rw [BitVec.toNat_sub_of_le (by rw [BitVec.le_def]; exact hpos)]
    rfl
  have hcond := BitVec.toInt_eq_toNat_cond x
  have hcond' := BitVec.toInt_eq_toNat_cond ((x + (m - 1)) &&& ~~~(m - 1))
  have hxlt := x.isLt
  have hsum : (x + (m - 1)).toNat = (x.toNat + (m.toNat - 1)) % 2 ^ 32 := by
    rw [BitVec.toNat_add, hsub]
  by_cases hlarge : 2 ^ 31 ≤ (x + (m - 1)).toNat
  · -- the sign stays
    have hdvd : m.toNat ∣ 2 ^ 31 := by
      rw [hm] at hlt ⊢
      exact Nat.pow_dvd_pow 2 (Nat.le_of_lt ((Nat.pow_lt_pow_iff_right (by decide)).mp hlt))
    have hmono := Nat.mul_le_mul_right m.toNat (Nat.div_le_div_right (c := m.toNat) hlarge)
    rw [Nat.div_mul_cancel hdvd] at hmono
    have hle := Nat.div_mul_le_self (x + (m - 1)).toNat m.toNat
    have := (x + (m - 1)).isLt
    omega
  · have hsmall : (x + (m - 1)).toNat < m.toNat := by omega
    rw [Nat.div_eq_of_lt hsmall, Nat.zero_mul] at hround
    omega

/-- Rounding up what is positive. -/
theorem roundUp_pos {m x : BitVec 32} {k : ℕ} (hm : m.toNat = 2 ^ k) (hx : 0 < x.toInt)
    (hlt : x.toInt + m.toNat ≤ 2147483648) :
    ((x + (m - 1)) &&& ~~~(m - 1)).toInt = alignUp x.toNat m.toNat := by
  have hround := toNat_and_not_sub_one hm (x + (m - 1))
  have hpos : 0 < m.toNat := hm ▸ Nat.two_pow_pos k
  have hsub : (m - 1).toNat = m.toNat - 1 := by
    rw [BitVec.toNat_sub_of_le (by rw [BitVec.le_def]; exact hpos)]
    rfl
  have hcond := BitVec.toInt_eq_toNat_cond x
  have hcond' := BitVec.toInt_eq_toNat_cond ((x + (m - 1)) &&& ~~~(m - 1))
  have hxlt := x.isLt
  have hsum : (x + (m - 1)).toNat = x.toNat + m.toNat - 1 := by
    rw [BitVec.toNat_add, hsub]
    omega
  rw [hsum] at hround
  have hle := Nat.div_mul_le_self (x.toNat + m.toNat - 1) m.toNat
  rw [← alignUp] at hround hle
  omega

theorem secLen_uniform (h : dev.flVarsecsize = none) :
    secLen map dev = fun _ => dev.flSecsize * map.flMapChips := by
  funext q
  unfold secLen
  rw [h]

theorem secLen_var {sizes : List ℕ} (h : dev.flVarsecsize = some sizes) :
    secLen map dev = fun q => (sizes[q]?.getD 0) * map.flMapChips := by
  funext q
  unfold secLen
  rw [h]

/-- **Sectors of one size.** -/
theorem uniform_course (hvar : dev.flVarsecsize = none) (hcontains : map.Contains base)
    (h : UniformGrid map dev base size) :
    Course map dev steps ok base size (eraseFound map dev steps ok base size) := by
  obtain ⟨k, hk⟩ := h.sector
  obtain ⟨hbase, hoff⟩ := toNat_offset hcontains
  have hsizeLe := h.size_le
  have hmis := h.misaligned
  have hdvd := h.base_dvd
  obtain ⟨c, hc⟩ := h.offset_dvd
  have hmask := h.mask
  have hlen : secLen map dev = fun _ => dev.flSecsize * map.flMapChips := secLen_uniform hvar
  have hstride : ∀ i, stride map dev i = some (dev.flSecsize * map.flMapChips) := by
    intro i
    unfold stride
    rw [hvar]
  generalize hS : dev.flSecsize * map.flMapChips = S at *
  have hSpos : 0 < S := hk ▸ Nat.two_pow_pos k
  have hm : (BitVec.ofNat 32 S).toNat = S := by
    rw [BitVec.toNat_ofNat]
    exact Nat.mod_eq_of_lt (by omega)
  have hsecMask : secMask map dev.flSecsize = BitVec.ofNat 32 S - 1 := by
    rw [secMask, hmask]
  -- the base is rounded down to the sector that it is in
  have hlow : (base &&& (BitVec.ofNat 32 S - 1)).toNat =
      (base - map.flMapBase).toNat % S := by
    rw [toNat_and_sub_one (hm.trans hk), hm, hbase]
    obtain ⟨e, he⟩ := hdvd
    rw [he, Nat.mul_add_mod]
  have hmod : base.toNat % S = (base - map.flMapBase).toNat % S := by
    rw [← hlow, toNat_and_sub_one (hm.trans hk), hm]
  have hdown := toNat_and_add_and_not base (BitVec.ofNat 32 S - 1)
  have hdm := Nat.div_add_mod (base - map.flMapBase).toNat S
  have hmodlt := Nat.mod_lt (base - map.flMapBase).toNat hSpos
  rw [hmod] at hmis
  unfold eraseFound
  rw [hvar]
  simp only [hsecMask, roundBase_eq]
  split
  · rename_i hrefused
    split at hrefused
    next hend => exact .nothing (not_inMap_of_refused hcontains hend.2)
    next => cases hrefused
  · rename_i base' size' hrounded
    split at hrounded
    next => cases hrounded
    next hend =>
    obtain ⟨rfl, rfl⟩ := Prod.mk.inj (Option.some.inj hrounded)
    -- the size grows by what the base goes down
    have hgrown : size.toInt + ((base - map.flMapBase).toNat % S : ℕ) < 2147483648 →
        (size + (base &&& (BitVec.ofNat 32 S - 1))).toInt =
          size.toInt + ((base - map.flMapBase).toNat % S : ℕ) := by
      intro hlt
      have hlo := BitVec.le_toInt (x := size)
      have hcond := BitVec.toInt_eq_toNat_cond (base &&& (BitVec.ofNat 32 S - 1))
      have hd : (base &&& (BitVec.ofNat 32 S - 1)).toInt =
          ((base - map.flMapBase).toNat % S : ℕ) := by
        omega
      rw [BitVec.toInt_add, hd]
      exact Int.bmod_eq_of_le (by omega) (by omega)
    by_cases hfits : 0 < size.toInt ∧ InMap map base size
    · obtain ⟨hpos, hmap⟩ := hfits
      have hend := hmap
      unfold InMap at hend
      have hsize := hgrown (by omega)
      have hround := roundUp_pos (hm.trans hk) (by omega)
        (show (size + (base &&& (BitVec.ofNat 32 S - 1))).toInt + (BitVec.ofNat 32 S).toNat ≤
          2147483648 by omega)
      have hnat : (size + (base &&& (BitVec.ofNat 32 S - 1))).toNat =
          size.toInt.toNat + (base - map.flMapBase).toNat % S := by
        have := BitVec.toInt_eq_toNat_cond (size + (base &&& (BitVec.ofNat 32 S - 1)))
        have := (size + (base &&& (BitVec.ofNat 32 S - 1))).isLt
        omega
      rw [hm, hnat] at hround
      have hq : spanStart (secLen map dev) ((base - map.flMapBase).toNat / S + c) =
          (base - map.flMapBase).toNat / S * S + map.flMapOffset := by
        rw [hlen, spanStart_const, Nat.add_mul, hc, Nat.mul_comm c S]
      rw [Nat.mul_comm] at hdm
      have hstart : ∀ j, spanStart (secLen map dev) j = j * S := by
        intro j
        rw [hlen, spanStart_const]
      have hin : InStep map dev
          ((base - map.flMapBase).toNat / S * S + map.flMapOffset +
            alignUp (size.toInt.toNat + (base - map.flMapBase).toNat % S) S)
          ((base - map.flMapBase).toNat / S + c)
          (((base &&& ~~~(BitVec.ofNat 32 S - 1)) - map.flMapBase).toNat / map.flMapChips /
            dev.flSecsize)
          ((base &&& ~~~(BitVec.ofNat 32 S - 1)) - map.flMapBase)
          ((size + (base &&& (BitVec.ofNat 32 S - 1)) + (BitVec.ofNat 32 S - 1)) &&&
            ~~~(BitVec.ofNat 32 S - 1)) := by
        constructor
        case base_eq =>
          apply BitVec.eq_of_toNat_eq
          have hle : map.flMapBase.toNat ≤ (base &&& ~~~(BitVec.ofNat 32 S - 1)).toNat := by omega
          rw [sectorAt, hq, Nat.add_sub_cancel, BitVec.toNat_ofNat,
            BitVec.toNat_sub_of_le (by rwa [BitVec.le_def])]
          omega
        case size_eq =>
          rw [hround, hq]
          omega
        case offset_le =>
          rw [hq]
          exact Nat.le_add_left ..
        case stride_eq =>
          intro i _
          rw [hstride, hlen]
        case len_pos =>
          intro j _
          rw [hlen]
          exact hSpos
        case len_lt =>
          intro j
          rw [hlen]
          show S < 2147483648
          omega
      have hwithin : Within (secLen map dev) (rangeStart map base)
          ((base - map.flMapBase).toNat / S + c) ((base - map.flMapBase).toNat % S) := by
        constructor
        · rw [hq, rangeStart]
          omega
        · rw [hlen]
          exact hmodlt
      have hhi : ∀ j, spanStart (secLen map dev) j <
          (base - map.flMapBase).toNat / S * S + map.flMapOffset +
            alignUp (size.toInt.toNat + (base - map.flMapBase).toNat % S) S ↔
          spanStart (secLen map dev) j < rangeEnd map base size := by
        intro j
        have hrangeEnd : rangeEnd map base size =
            (base - map.flMapBase).toNat / S * S + map.flMapOffset +
              (size.toInt.toNat + (base - map.flMapBase).toNat % S) := by
          unfold rangeEnd rangeStart
          omega
        rw [hrangeEnd]
        apply lt_add_alignUp_iff hSpos
        · rw [hstart]
          exact Nat.dvd_mul_left S j
        · rw [← hq, hstart]
          exact Nat.dvd_mul_left S _
      exact .loop hin hwithin hpos hmap hhi
    · rw [eraseLoop_end]
      · exact .nothing hfits
      · apply roundUp_not_pos (hm.trans hk) (by omega)
        by_cases hmisaligned : (base - map.flMapBase).toNat % S = 0
        · have hzero : base &&& (BitVec.ofNat 32 S - 1) = 0 :=
            BitVec.eq_of_toNat_eq (hlow.trans hmisaligned)
          have hnot : ¬ 0 < size.toInt := by
            intro hpos
            exact hfits ⟨hpos, inMap_of_accepted hpos hcontains fun hlt => hend ⟨hzero, hlt⟩⟩
          rw [hgrown (by omega)]
          omega
        · have hback := (hmis hmisaligned).resolve_left hfits
          rw [hgrown (by omega)]
          exact hback

/-- The search stops at the sector that begins at the offset. -/
theorem findBlock_eq {chips : ℕ} (hchips : 0 < chips) {sizes : List ℕ} (hpos : ∀ s ∈ sizes, 0 < s)
    {q : ℕ} (hq : q ≤ sizes.length) (totalsize block : ℕ) :
    findBlock chips (totalsize + (sizes.take q).sum * chips) sizes totalsize block =
      some (block + q) := by
  induction sizes generalizing q totalsize block with
  | nil =>
    obtain rfl : q = 0 := Nat.le_zero.mp hq
    simp [findBlock]
  | cons s sizes ih =>
    cases q with
    | zero => simp [findBlock]
    | succ q =>
      have hs : 0 < s * chips := Nat.mul_pos (hpos s List.mem_cons_self) hchips
      have hrest := ih (fun s hs => hpos s (List.mem_cons_of_mem _ hs)) (Nat.le_of_succ_le_succ hq)
        (totalsize + s * chips) (block + 1)
      rw [List.take_succ_cons, List.sum_cons, Nat.add_mul, findBlock, if_pos (by omega),
        ← Nat.add_assoc, hrest, Nat.add_right_comm, Nat.add_assoc]

/-- **Sectors of different sizes.** -/
theorem var_course {sizes : List ℕ} (hvar : dev.flVarsecsize = some sizes)
    (hcontains : map.Contains base) (h : VarGrid map dev sizes base) :
    Course map dev steps ok base size (eraseFound map dev steps ok base size) := by
  obtain ⟨q, s, hsize, hbegin, haligned⟩ := h.begins
  obtain ⟨hq, -⟩ := List.getElem?_eq_some_iff.mp hsize
  have hlen : secLen map dev = _ := secLen_var hvar
  have hcovers := h.covers
  have hfind : findBlock map.flMapChips ((base - map.flMapBase).toNat + map.flMapOffset) sizes 0 0 =
      some q := by
    have hstart : (base - map.flMapBase).toNat + map.flMapOffset =
        0 + (sizes.take q).sum * map.flMapChips := by
      rw [Nat.zero_add, ← spanStart_list, ← hlen]
      exact hbegin
    rw [hstart, findBlock_eq map.chips_pos h.pos (Nat.le_of_lt hq), Nat.zero_add]
  have hround : roundBase map (secMask map s) base size =
      if map.flMapSize < (size + (base - map.flMapBase)).toNat then none
      else some (base, size) := by
    unfold roundBase
    rw [if_neg (not_not.mpr haligned)]
  unfold eraseFound
  rw [hvar]
  simp only [hfind, hsize, hround]
  by_cases hrefused : map.flMapSize < (size + (base - map.flMapBase)).toNat
  · simp only [if_pos hrefused]
    exact .nothing (not_inMap_of_refused hcontains hrefused)
  · simp only [if_neg hrefused]
    by_cases hpos : 0 < size.toInt
    · have hmap := inMap_of_accepted hpos hcontains hrefused
      -- sectors that begin in the range are in the table
      have htable : ∀ j, spanStart (secLen map dev) j < rangeEnd map base size →
          ∃ t ∈ sizes, sizes[j]? = some t := by
        intro j hj
        have hlt : j < sizes.length := by
          by_contra hbehind
          have := spanStart_mono (ℓ := secLen map dev) (Nat.le_of_not_lt hbehind)
          unfold InMap at hmap
          unfold rangeEnd rangeStart at hj
          omega
        exact ⟨sizes[j], List.getElem_mem hlt, List.getElem?_eq_getElem hlt⟩
      have hin : InStep map dev (rangeEnd map base size) q q (base - map.flMapBase) size := by
        constructor
        case base_eq =>
          rw [sectorAt, ← hbegin, rangeStart, Nat.add_sub_cancel, BitVec.ofNat_toNat,
            BitVec.setWidth_eq]
        case size_eq =>
          rw [← hbegin, rangeEnd]
          omega
        case offset_le =>
          rw [← hbegin, rangeStart]
          exact Nat.le_add_left ..
        case stride_eq =>
          intro i hi
          obtain ⟨t, -, ht⟩ := htable _ hi
          rw [hlen]
          simp only [stride, hvar, ht, Option.map_some, Option.getD_some]
        case len_pos =>
          intro j hj
          obtain ⟨t, hmem, ht⟩ := htable j hj
          rw [hlen]
          simp only [ht, Option.getD_some]
          exact Nat.mul_pos (h.pos t hmem) map.chips_pos
        case len_lt =>
          intro j
          rw [hlen]
          cases ht : sizes[j]? with
          | none => simp [ht]
          | some t =>
            simp only [ht, Option.getD_some]
            exact h.lt t (List.mem_of_getElem? ht)
      have hwithin : Within (secLen map dev) (rangeStart map base) q 0 := by
        refine ⟨hbegin, hin.len_pos q ?_⟩
        rw [← hbegin, rangeEnd]
        omega
      exact .loop hin hwithin hpos hmap fun _ => Iff.rfl
    · rw [eraseLoop_end hpos]
      exact .nothing fun hfits => hpos hfits.1

/-! ## §4 Erasing and programming -/

/-- **`fl_erase_device`** on a range that can be rounded as it is. -/
theorem eraseFound_course (hcontains : map.Contains base) (h : OnGrid map dev base size) :
    Course map dev steps ok base size (eraseFound map dev steps ok base size) := by
  unfold OnGrid at h
  cases hvar : dev.flVarsecsize with
  | none =>
    rw [hvar] at h
    exact uniform_course hvar hcontains h
  | some sizes =>
    rw [hvar] at h
    exact var_course hvar hcontains h

/-- Success of programming tells that every step succeeded. -/
def ProgramRight (program : ℕ → ℤ) (r : Programming) : Prop :=
  r.result = 0 → ∀ k < r.written.length, program k = 0

/-- Success of the last step tells it of every step. -/
def LastProgramTells (program : ℕ → ℤ) (n : ℕ) : Prop :=
  program (n - 1) = 0 → ∀ k < n, program k = 0

variable {program : ℕ → ℤ} {dataSize : BitVec 32}

/-- The loop from round `k` on. -/
theorem programLoop_result (k : ℕ) (off dataBase : BitVec 32) :
    let r := programLoop map program dataSize (k * map.flMapWidth) k off dataBase ok
    r.written.length = rounds map dataSize - k ∧
      r.result = if k < rounds map dataSize then program (rounds map dataSize - 1) else ok := by
  induction hrest : rounds map dataSize - k generalizing k off dataBase ok with
  | zero =>
    have hend : ¬ k < rounds map dataSize := by omega
    rw [programLoop, if_neg (mt lt_rounds_iff.mpr hend), if_neg hend]
    exact ⟨rfl, rfl⟩
  | succ n ih =>
    have hk : k < rounds map dataSize := by omega
    rw [programLoop, if_pos (lt_rounds_iff.mp hk), if_pos hk]
    have hrest' := @ih (program k) (k + 1) (off + BitVec.ofNat 32 map.flMapBus.step)
      (dataBase + BitVec.ofNat 32 map.flMapBus.step) (by omega)
    rw [Nat.succ_mul] at hrest'
    obtain ⟨hlength, hresult⟩ := hrest'
    refine ⟨by simp [hlength], ?_⟩
    rw [hresult]
    split
    · rfl
    · rw [show rounds map dataSize - 1 = k by omega]

/-- **`fl_program_device`.** -/
theorem flProgramDevice_right (known : FlMap → Option FlDevice) (maps : List FlMap)
    (enabled : Bool) (flBase dataBase : BitVec 32) :
    ProgramRight program
        (flProgramDevice known maps enabled program ok flBase dataBase dataSize) ↔
      (enabled = true → ∀ map dev, flDevident known maps flBase = some (map, dev) →
        Accepted map flBase dataBase dataSize →
        LastProgramTells program (rounds map dataSize)) := by
  have hfails : ∀ result : ℤ, result ≠ 0 → ProgramRight program ⟨[], result⟩ :=
    fun _ hne hzero => absurd hzero hne
  unfold flProgramDevice
  by_cases henabled : enabled = true
  · simp only [henabled, not_true_eq_false, if_false, forall_const]
    cases hfound : flDevident known maps flBase with
    | none =>
      apply iff_of_true (hfails (-3) (by decide))
      intro map dev hsame
      cases hsame
    | some found =>
      obtain ⟨map, dev⟩ := found
      by_cases haccepted : Accepted map flBase dataBase dataSize
      · simp only [if_pos haccepted]
        obtain ⟨hlength, hresult⟩ := @programLoop_result map ok program dataSize 0
          (flBase - map.flMapBase + BitVec.ofNat 32 map.flMapOffset) dataBase
        rw [Nat.zero_mul] at hlength hresult
        unfold ProgramRight
        rw [hlength, hresult, Nat.sub_zero]
        constructor
        · intro hright map' dev' hsame _ hlast k hk
          cases hsame
          rw [if_pos (Nat.zero_lt_of_lt hk)] at hright
          exact hright hlast k hk
        · intro htells hlast k hk
          rw [if_pos (Nat.zero_lt_of_lt hk)] at hlast
          exact htells map dev rfl haccepted hlast k hk
      · simp only [if_neg haccepted]
        apply iff_of_true (hfails (-4) (by decide))
        intro map' dev' hsame haccepted'
        cases hsame
        exact absurd haccepted' haccepted
  · rw [if_pos henabled]
    exact iff_of_true (hfails (-2) (by decide)) fun htrue => absurd htrue henabled

/-- **Erasing and programming.** Where the range can be rounded as it is, the right sectors are
    erased, and success of both calls tells of every step exactly if no failure is followed by the
    success of the last step. -/
theorem flDevice_right {known : FlMap → Option FlDevice} {maps : List FlMap}
    (hfound : flDevident known maps base = some (map, dev))
    (hgrid : OnGrid map dev base (wholeSize map base size)) (okErase okProgram : ℤ)
    (enabled : Bool) (flBase dataBase : BitVec 32) :
    EraseRight map dev steps base (wholeSize map base size)
        (flEraseDevice known maps true steps okErase base size) ∧
      ProgramRight program
        (flProgramDevice known maps enabled program okProgram flBase dataBase dataSize) ↔
      (InMap map base (wholeSize map base size) →
        LastTells map dev steps base (wholeSize map base size)) ∧
      (enabled = true → ∀ map dev, flDevident known maps flBase = some (map, dev) →
        Accepted map flBase dataBase dataSize →
        LastProgramTells program (rounds map dataSize)) := by
  apply and_congr
  · unfold flEraseDevice
    rw [hfound]
    exact (eraseFound_course (flDevident_contains hfound) hgrid).right
  · exact flProgramDevice_right known maps enabled flBase dataBase

/-- A device that does what it is told. -/
def goodStep : Step := ⟨true, fun _ => .done⟩

theorem goodStep_answer : goodStep.answer = .done := by
  unfold Step.answer goodStep
  rw [waitBusy, if_neg (by decide)]

/-- The one sector of a small map is erased, and a byte is programmed. -/
theorem flDevice_right_smallMap :
    EraseRight smallMap ⟨16, none⟩ (fun _ => goodStep) 0xbfc00004 2
        (flEraseDevice (fun _ => some ⟨16, none⟩) [smallMap] true (fun _ => goodStep) 1
          0xbfc00004 2) ∧
      ProgramRight (fun _ => 0)
        (flProgramDevice (fun _ => some ⟨16, none⟩) [smallMap] true (fun _ => 0) 1 0xbfc00004
          0x80100000 2) := by
  have hgrid : OnGrid smallMap ⟨16, none⟩ 0xbfc00004 2 := by
    refine ⟨⟨4, by decide⟩, by decide, by decide, by decide, by decide, fun _ => .inl ?_⟩
    exact ⟨by decide, by decide⟩
  have hboth := @flDevice_right smallMap ⟨16, none⟩ (fun _ => goodStep) 0xbfc00004 2 (fun _ => 0) 2
    (fun _ => some ⟨16, none⟩) [smallMap] rfl hgrid 1 1 true 0xbfc00004 0x80100000
  refine hboth.mpr ⟨?_, ?_⟩
  · intro _ _ _ _ _ _ _ _
    exact goodStep_answer
  · intro _ _ _ _ _ _ _ _
    rfl

/-- A map of 16 bits with sectors of 64 kB. -/
def wordMap : FlMap where
  flMapBase := 0xbc000000
  flMapSize := 0x2000000
  flMapWidth := 2
  flMapChips := 1
  flMapBus := .bus16
  flMapOffset := 0
  width_pos := by decide
  chips_pos := Nat.one_pos
  end_le := by decide
  size_lt := by decide

/-- **The sector in front of the range is erased too** where the mask is that of two sectors. -/
theorem flEraseDevice_wide :
    ¬ EraseRight wordMap ⟨0x10000, none⟩ (fun _ => goodStep) 0xbc010000 0x10000
      (flEraseDevice (fun _ => some ⟨0x10000, none⟩) [wordMap] true (fun _ => goodStep) 0
        0xbc010000 0x10000) := by
  intro hright
  have hfirst : (0 : BitVec 32) ∈ (flEraseDevice (fun _ => some ⟨0x10000, none⟩) [wordMap] true
      (fun _ => goodStep) 0 0xbc010000 0x10000).tried := by
    have hfound : flDevident (fun _ => some ⟨0x10000, none⟩) [wordMap] 0xbc010000 =
        some (wordMap, ⟨0x10000, none⟩) := rfl
    have hwhole : wholeSize wordMap 0xbc010000 0x10000 = 0x10000 := by decide
    have hround : roundBase wordMap (secMask wordMap 0x10000) 0xbc010000 0x10000 =
        some (0xbc000000, 0x20000) := by decide
    have hbase : 0xbc000000 - wordMap.flMapBase = 0 := by decide
    have hsize : (0x20000 + secMask wordMap 0x10000) &&& ~~~secMask wordMap 0x10000 =
        0x20000 := by decide
    unfold flEraseDevice
    rw [hfound]
    unfold eraseFound
    simp only [hwhole, hround, hbase, hsize]
    rw [if_neg (by decide), eraseLoop, if_pos (by decide),
      if_pos (show goodStep.accepted = true from rfl)]
    simp [stride, wordMap]
  obtain ⟨q, ⟨-, r, hwithin⟩, n, r', hwithin', hlo, -⟩ := hright.none_else 0 hfirst
  have hlen : secLen wordMap ⟨0x10000, none⟩ = fun _ => 0x10000 := by
    rw [secLen_uniform rfl]
    simp [wordMap]
  have hq := hwithin.eq
  have hn := hwithin'.eq
  have hr : r' < 0x10000 := by simpa [hlen] using hwithin'.lt
  rw [hlen, spanStart_const] at hq hn
  have hbegin : rangeStart wordMap 0xbc010000 = 0x10000 := by decide
  have hzero : (0 : BitVec 32).toNat + wordMap.flMapOffset = 0 := rfl
  omega

end Pmon.Flash
