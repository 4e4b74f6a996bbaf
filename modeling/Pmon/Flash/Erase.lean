import Pmon.Flash.Verify
import Pmon.Lib.Spans

/-!
# Erasing and programming flash memory

`fl_erase_device` and `fl_program_device` of `pmon/dev/flash.c`.  Base and size are rounded to a
mask, and one sector after the other is erased, each of them by a step whose outcome replaces that
of the step before.  Programming goes over the range in units of the bus in the same way.

## Key results

- `eraseLoop_tried`: where the loop gives commands.
- `eraseLoop_result`: what its result tells.
- `programLoop_result`: the result of programming is that of the last step.
-/

namespace Pmon.Flash

open Lib

/-! ## §1 Erasing -/

/-- How the device answers when it is told to erase a sector. -/
structure Step where
  /-- `erase_sector` returns 0. -/
  accepted : Bool
  isbusy : ℕ → Busy

/-- The answer that ends the wait. -/
def Step.answer (s : Step) : Busy := (waitBusy s.isbusy 0).1

/-- The sector is erased. -/
def Step.Succeeds (s : Step) : Prop := s.accepted ∧ s.answer = .done

/-- What a call does: where it gives commands, and what it returns, `none` if it reads behind the
    table of sectors. -/
structure Erasure where
  tried : List (BitVec 32)
  result : Option ℤ

/-- How far the loop goes on behind a sector. -/
def stride (map : FlMap) (dev : FlDevice) (block : ℕ) : Option ℕ :=
  match dev.flVarsecsize with
  | some sizes => sizes[block]?.map (· * map.flMapChips)
  | none => some (dev.flSecsize * map.flMapChips)

/-- The size that is left does not wrap. -/
theorem toInt_sub_stride (size : BitVec 32) {n : ℕ} (hn : n < 2147483648) (hs : 0 < size.toInt) :
    (size - BitVec.ofNat 32 n).toInt = size.toInt - n := by
  have hlt := BitVec.toInt_lt (x := size)
  rw [BitVec.toInt_sub, BitVec.toInt_ofNat', Int.bmod_eq_of_le (n := (n : ℤ)) (by omega) (by omega)]
  exact Int.bmod_eq_of_le (by omega) (by omega)

/-- The loop over the sectors; `base` is an offset in the map. -/
def eraseLoop (map : FlMap) (dev : FlDevice) (steps : BitVec 32 → Step) (block : ℕ)
    (base size : BitVec 32) (ok : ℤ) : Erasure :=
  if 0 < size.toInt then
    if (steps base).accepted then
      match stride map dev block with
      | none => ⟨[base], none⟩
      | some n =>
        if _h : 0 < n ∧ n < 2147483648 then
          let r := eraseLoop map dev steps (block + 1) (base + BitVec.ofNat 32 n)
            (size - BitVec.ofNat 32 n) (steps base).answer.code
          ⟨base :: r.tried, r.result⟩
        else ⟨[base], none⟩  -- no table has such a sector
    else ⟨[base], some (-4)⟩
  else ⟨[], some ok⟩
termination_by size.toInt.toNat
decreasing_by
  have := toInt_sub_stride size _h.2 (by assumption)
  omega

/-- The block that the search stops at: the first one that begins at the offset or behind it. -/
def findBlock (chips offset : ℕ) : List ℕ → (totalsize block : ℕ) → Option ℕ
  | [], totalsize, block => if totalsize < offset then none else some block
  | s :: sizes, totalsize, block =>
    if totalsize < offset then findBlock chips offset sizes (totalsize + s * chips) (block + 1)
    else some block

/-- The mask of a sector size. -/
def secMask (map : FlMap) (secsize : ℕ) : BitVec 32 :=
  BitVec.ofNat 32 (secsize * map.flMapWidth / map.flMapChips) - 1

/-- A base that is not aligned is rounded down, and the size grows; only the end of an aligned range
    is checked. -/
def roundBase (map : FlMap) (mask base size : BitVec 32) : Option (BitVec 32 × BitVec 32) :=
  if base &&& mask ≠ 0 then some (base &&& ~~~mask, size + (base &&& mask))
  else if map.flMapSize < (size + (base - map.flMapBase)).toNat then none
  else some (base, size)

/-- The size that is meant by −1 at the start of a map. -/
def wholeSize (map : FlMap) (base size : BitVec 32) : BitVec 32 :=
  if size = -1 ∧ base = map.flMapBase then BitVec.ofNat 32 map.flMapSize else size

/-- `fl_erase_device` on the device that was found. -/
def eraseFound (map : FlMap) (dev : FlDevice) (steps : BitVec 32 → Step) (ok : ℤ)
    (base size : BitVec 32) : Erasure :=
  match dev.flVarsecsize with
  | some sizes =>
    let offset := (base - map.flMapBase).toNat + map.flMapOffset
    match findBlock map.flMapChips offset sizes 0 0 with
    | none => ⟨[], none⟩
    | some block =>
      match sizes[block]? with
      | none => ⟨[], none⟩
      | some secsize =>
        match roundBase map (secMask map secsize) base size with
        | none => ⟨[], some (-4)⟩
        | some (base, size) => eraseLoop map dev steps block (base - map.flMapBase) size ok
  | none =>
    let mask := secMask map dev.flSecsize
    match roundBase map mask base size with
    | none => ⟨[], some (-4)⟩
    | some (base, size) =>
      let base := base - map.flMapBase
      let block := base.toNat / map.flMapChips / dev.flSecsize
      eraseLoop map dev steps block base ((size + mask) &&& ~~~mask) ok

/-- `fl_erase_device`; `ok` is what the variable holds at first. -/
def flEraseDevice (known : FlMap → Option FlDevice) (maps : List FlMap) (enabled : Bool)
    (steps : BitVec 32 → Step) (ok : ℤ) (base size : BitVec 32) : Erasure :=
  if ¬ enabled then ⟨[], some (-2)⟩
  else
    match flDevident known maps base with
    | none => ⟨[], some (-3)⟩
    | some (map, dev) => eraseFound map dev steps ok base (wholeSize map base size)

/-! ## §2 Programming -/

/-- What a call writes, each time from an address of memory to an offset in the map, and what it
    returns. -/
structure Programming where
  written : List (BitVec 32 × BitVec 32)
  result : ℤ

/-- The loop over the units; `program` is what the device answers in round `k`. -/
def programLoop (map : FlMap) (program : ℕ → ℤ) (dataSize : BitVec 32) (i k : ℕ)
    (off dataBase : BitVec 32) (ok : ℤ) : Programming :=
  if i < dataSize.toInt.toNat then
    let step := BitVec.ofNat 32 map.flMapBus.step
    let r := programLoop map program dataSize (i + map.flMapWidth) (k + 1) (off + step)
      (dataBase + step) (program k)
    ⟨(off, dataBase) :: r.written, r.result⟩
  else ⟨[], ok⟩
termination_by dataSize.toInt.toNat - i
decreasing_by
  have := map.width_pos
  omega

/-- `fl_program_device`. -/
def flProgramDevice (known : FlMap → Option FlDevice) (maps : List FlMap) (enabled : Bool)
    (program : ℕ → ℤ) (ok : ℤ) (flBase dataBase dataSize : BitVec 32) : Programming :=
  if ¬ enabled then ⟨[], -2⟩
  else
    match flDevident known maps flBase with
    | none => ⟨[], -3⟩
    | some (map, _) =>
      if Accepted map flBase dataBase dataSize then
        let off := flBase - map.flMapBase + BitVec.ofNat 32 map.flMapOffset
        programLoop map program dataSize 0 0 off dataBase ok
      else ⟨[], -4⟩

/-! ## §3 The loop over the sectors -/

/-- The length of a sector of the map: as many bytes of each chip. -/
def secLen (map : FlMap) (dev : FlDevice) (q : ℕ) : ℕ :=
  match dev.flVarsecsize with
  | some sizes => (sizes[q]?.getD 0) * map.flMapChips
  | none => dev.flSecsize * map.flMapChips

/-- The offset in the map at which a sector begins. -/
def sectorAt (map : FlMap) (dev : FlDevice) (q : ℕ) : BitVec 32 :=
  BitVec.ofNat 32 (spanStart (secLen map dev) q - map.flMapOffset)

variable {map : FlMap} {dev : FlDevice} {steps : BitVec 32 → Step} {q block hi : ℕ}
  {base size : BitVec 32} {ok : ℤ}

/-- The loop is at sector `q`, and goes on to before `hi`. -/
structure InStep (map : FlMap) (dev : FlDevice) (hi q block : ℕ) (base size : BitVec 32) :
    Prop where
  base_eq : base = sectorAt map dev q
  size_eq : size.toInt = hi - spanStart (secLen map dev) q
  offset_le : map.flMapOffset ≤ spanStart (secLen map dev) q
  stride_eq : ∀ i, spanStart (secLen map dev) (q + i) < hi →
    stride map dev (block + i) = some (secLen map dev (q + i))
  len_pos : ∀ j, spanStart (secLen map dev) j < hi → 0 < secLen map dev j
  len_lt : ∀ j, secLen map dev j < 2147483648

/-- Sector `j` is still to come. -/
def Ahead (map : FlMap) (dev : FlDevice) (hi q j : ℕ) : Prop :=
  q ≤ j ∧ spanStart (secLen map dev) j < hi

theorem InStep.size_pos_iff (h : InStep map dev hi q block base size) :
    0 < size.toInt ↔ spanStart (secLen map dev) q < hi := by
  have := h.size_eq
  omega

/-- The next sector. -/
theorem InStep.next (h : InStep map dev hi q block base size)
    (hq : spanStart (secLen map dev) q < hi) :
    InStep map dev hi (q + 1) (block + 1) (base + BitVec.ofNat 32 (secLen map dev q))
      (size - BitVec.ofNat 32 (secLen map dev q)) := by
  have hstart := spanStart_succ (secLen map dev) q
  have hoffset := h.offset_le
  constructor
  case base_eq =>
    rw [h.base_eq, sectorAt, sectorAt, ← BitVec.ofNat_add, hstart, Nat.sub_add_comm hoffset]
  case size_eq =>
    rw [toInt_sub_stride size (h.len_lt q) (h.size_pos_iff.mpr hq), h.size_eq, hstart]
    omega
  case offset_le => omega
  case stride_eq =>
    intro i hi
    have hlater := h.stride_eq (i + 1)
    rw [Nat.add_right_comm q 1 i] at hi ⊢
    rw [Nat.add_right_comm block 1 i]
    exact hlater hi
  case len_pos => exact h.len_pos
  case len_lt => exact h.len_lt

/-- A round of the loop. -/
theorem eraseLoop_step (h : InStep map dev hi q block base size)
    (hq : spanStart (secLen map dev) q < hi) :
    eraseLoop map dev steps block base size ok =
      if (steps base).accepted then
        let r := eraseLoop map dev steps (block + 1) (base + BitVec.ofNat 32 (secLen map dev q))
          (size - BitVec.ofNat 32 (secLen map dev q)) (steps base).answer.code
        ⟨base :: r.tried, r.result⟩
      else ⟨[base], some (-4)⟩ := by
  have hstride : stride map dev block = some (secLen map dev q) := h.stride_eq 0 hq
  rw [eraseLoop, if_pos (h.size_pos_iff.mpr hq), hstride]
  simp only [dif_pos (And.intro (h.len_pos q hq) (h.len_lt q))]

theorem eraseLoop_end (h : ¬ 0 < size.toInt) :
    eraseLoop map dev steps block base size ok = ⟨[], some ok⟩ := by
  rw [eraseLoop, if_neg h]

/-- **Where the loop gives commands**: at the sectors that are ahead, up to the first one that is
    not accepted. -/
theorem eraseLoop_tried (h : InStep map dev hi q block base size) (o : BitVec 32) :
    o ∈ (eraseLoop map dev steps block base size ok).tried ↔
      ∃ j, Ahead map dev hi q j ∧ o = sectorAt map dev j ∧
        ∀ i, q ≤ i → i < j → (steps (sectorAt map dev i)).accepted = true := by
  induction hrest : hi - spanStart (secLen map dev) q using Nat.strong_induction_on
    generalizing q block base size ok with
  | h n ih =>
    by_cases hq : spanStart (secLen map dev) q < hi
    · have hstart := spanStart_succ (secLen map dev) q
      have hpos := h.len_pos q hq
      rw [eraseLoop_step h hq]
      by_cases haccepted : (steps base).accepted
      · rw [if_pos haccepted]
        simp only [List.mem_cons]
        rw [ih _ (by omega) (h.next hq) rfl]
        constructor
        · rintro (rfl | ⟨j, hahead, ho, hbefore⟩)
          · refine ⟨q, ⟨Nat.le_refl q, hq⟩, h.base_eq, ?_⟩
            intro i hlo hlt
            omega
          · refine ⟨j, ⟨Nat.le_of_succ_le hahead.1, hahead.2⟩, ho, ?_⟩
            intro i hlo hlt
            rcases Nat.eq_or_lt_of_le hlo with rfl | hafter
            · rwa [← h.base_eq]
            · exact hbefore i hafter hlt
        · rintro ⟨j, hahead, ho, hbefore⟩
          rcases Nat.eq_or_lt_of_le hahead.1 with rfl | hafter
          · exact .inl (ho.trans h.base_eq.symm)
          · refine .inr ⟨j, ⟨hafter, hahead.2⟩, ho, ?_⟩
            intro i hlo hlt
            exact hbefore i (Nat.le_of_succ_le hlo) hlt
      · rw [if_neg haccepted, List.mem_singleton]
        constructor
        · rintro rfl
          refine ⟨q, ⟨Nat.le_refl q, hq⟩, h.base_eq, ?_⟩
          intro i hlo hlt
          omega
        · rintro ⟨j, hahead, ho, hbefore⟩
          rcases Nat.eq_or_lt_of_le hahead.1 with rfl | hafter
          · exact ho.trans h.base_eq.symm
          · -- the loop has ended at the first sector
            have hfirst := hbefore q (Nat.le_refl q) hafter
            rw [← h.base_eq] at hfirst
            exact absurd hfirst haccepted
    · rw [eraseLoop_end (mt h.size_pos_iff.mp hq)]
      constructor
      · intro hmem
        cases hmem
      · rintro ⟨j, hahead, -⟩
        have := spanStart_mono (ℓ := secLen map dev) hahead.1
        have := hahead.2
        omega

/-- A sector that is not accepted ends the call. -/
theorem eraseLoop_rejected (h : InStep map dev hi q block base size)
    (hrejected : ∃ j, Ahead map dev hi q j ∧ (steps (sectorAt map dev j)).accepted = false) :
    (eraseLoop map dev steps block base size ok).result = some (-4) := by
  induction hrest : hi - spanStart (secLen map dev) q using Nat.strong_induction_on
    generalizing q block base size ok with
  | h n ih =>
    obtain ⟨j, hahead, hj⟩ := hrejected
    have hq : spanStart (secLen map dev) q < hi :=
      Nat.lt_of_le_of_lt (spanStart_mono hahead.1) hahead.2
    have hstart := spanStart_succ (secLen map dev) q
    have hpos := h.len_pos q hq
    rw [eraseLoop_step h hq]
    by_cases haccepted : (steps base).accepted
    · rw [if_pos haccepted]
      apply ih _ (by omega) (h.next hq) _ rfl
      refine ⟨j, ⟨?_, hahead.2⟩, hj⟩
      rcases Nat.eq_or_lt_of_le hahead.1 with rfl | hafter
      · rw [h.base_eq, hj] at haccepted
        cases haccepted
      · exact hafter
    · rw [if_neg haccepted]

/-- **The result is the answer to the last step** if all of them are accepted. -/
theorem eraseLoop_result (h : InStep map dev hi q block base size) {l : ℕ}
    (hl : Ahead map dev hi q l) (hlast : hi ≤ spanStart (secLen map dev) (l + 1))
    (haccepted : ∀ j, Ahead map dev hi q j → (steps (sectorAt map dev j)).accepted = true) :
    (eraseLoop map dev steps block base size ok).result =
      some (steps (sectorAt map dev l)).answer.code := by
  obtain ⟨d, hd⟩ := Nat.exists_eq_add_of_le hl.1
  induction d generalizing q block base size ok with
  | zero =>
    obtain rfl : l = q := hd
    rw [eraseLoop_step h hl.2, h.base_eq, if_pos (haccepted l hl)]
    have hnext := h.next hl.2
    rw [h.base_eq] at hnext
    rw [eraseLoop_end]
    rw [hnext.size_pos_iff]
    omega
  | succ d ih =>
    have hq : spanStart (secLen map dev) q < hi :=
      Nat.lt_of_le_of_lt (spanStart_mono hl.1) hl.2
    rw [eraseLoop_step h hq, if_pos]
    · apply ih (h.next hq) ⟨by omega, hl.2⟩
      · intro j hj
        exact haccepted j ⟨Nat.le_of_succ_le hj.1, hj.2⟩
      · omega
    · rw [h.base_eq]
      exact haccepted q ⟨Nat.le_refl q, hq⟩

end Pmon.Flash
