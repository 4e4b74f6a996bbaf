import Mathlib.Algebra.Order.Ring.Nat
import Mathlib.Tactic.Ring
import Pmon.Pci.Windows

/-!
# Sizes and addresses

The arithmetic of the windows, on words of 32 bits, against the packing of items.

## Key results

- `place_pack`: as long as there is room, addresses are handed out as items are packed.
- `packEnd_of_place`: if no window fell back, there was room.
-/

namespace Pmon.Pci

open Pmon.Lib

/-! ## §1 Words -/

/-- A word that is a power of two. -/
def PowTwo (a : BitVec 32) : Prop := ∃ k, a.toNat = 2 ^ k

theorem PowTwo.pos {a : BitVec 32} (h : PowTwo a) : 0 < a.toNat := by
  obtain ⟨k, hk⟩ := h
  rw [hk]
  exact Nat.two_pow_pos k

theorem PowTwo.exp_lt {a : BitVec 32} {k : ℕ} (hk : a.toNat = 2 ^ k) : k < 32 := by
  have hlt : 2 ^ k < 2 ^ 32 := hk ▸ a.isLt
  exact (Nat.pow_lt_pow_iff_right (by decide)).mp hlt

/-- Of two powers of two the smaller one divides the other. -/
theorem PowTwo.dvd_of_le {a b : BitVec 32} (ha : PowTwo a) (hb : PowTwo b)
    (hle : a.toNat ≤ b.toNat) : a.toNat ∣ b.toNat := by
  obtain ⟨j, hj⟩ := ha
  obtain ⟨k, hk⟩ := hb
  rw [hj, hk] at hle ⊢
  exact Nat.pow_dvd_pow 2 ((Nat.pow_le_pow_iff_right (by decide)).mp hle)

theorem PowTwo.dvd_half {a : BitVec 32} (ha : PowTwo a) : a.toNat ∣ 2 ^ 31 := by
  obtain ⟨k, hk⟩ := ha
  have := PowTwo.exp_lt hk
  rw [hk]
  exact Nat.pow_dvd_pow 2 (by omega)

theorem PowTwo.le_half {a : BitVec 32} (ha : PowTwo a) : a.toNat ≤ 2 ^ 31 :=
  Nat.le_of_dvd (by decide) ha.dvd_half

/-- Clearing the bits below a power of two. -/
theorem and_not_toNat {a : BitVec 32} (ha : PowTwo a) (x : BitVec 32) :
    (x &&& ~~~(a - 1)).toNat = x.toNat / a.toNat * a.toNat := by
  obtain ⟨k, hk⟩ := ha
  have hk32 := PowTwo.exp_lt hk
  have hlow : (x &&& (a - 1)).toNat = x.toNat % 2 ^ k := by
    have hpos := Nat.two_pow_pos k
    have hsub : (a - 1).toNat = 2 ^ k - 1 := by
      rw [BitVec.toNat_sub_of_le (by rw [BitVec.le_def]; simp; omega)]
      simp [hk]
    rw [BitVec.toNat_and, hsub, Nat.and_two_pow_sub_one_eq_mod]
  have hdisj : (x &&& ~~~(a - 1)) &&& (x &&& (a - 1)) = 0#32 := by
    ext i hi
    simp only [BitVec.getElem_and, BitVec.getElem_not, BitVec.getElem_zero]
    cases x[i] <;> cases (a - 1)[i] <;> rfl
  have hjoin : (x &&& ~~~(a - 1)) ||| (x &&& (a - 1)) = x := by
    ext i hi
    simp only [BitVec.getElem_or, BitVec.getElem_and, BitVec.getElem_not]
    cases x[i] <;> cases (a - 1)[i] <;> rfl
  have hsum : (x &&& ~~~(a - 1)).toNat + x.toNat % 2 ^ k = x.toNat := by
    rw [← hlow, ← BitVec.toNat_add_of_and_eq_zero hdisj, BitVec.add_eq_or_of_and_eq_zero _ _ hdisj,
      hjoin]
  have := Nat.div_add_mod x.toNat (2 ^ k)
  rw [hk, Nat.mul_comm]
  omega

/-- Rounding up on words. -/
theorem roundUp_toNat {a : BitVec 32} (ha : PowTwo a) {x : BitVec 32}
    (hx : x.toNat + a.toNat ≤ 2 ^ 32) :
    ((x + a - 1) &&& ~~~(a - 1)).toNat = alignUp x.toNat a.toNat := by
  have hpos := ha.pos
  have hsum : (x + a - 1).toNat = x.toNat + a.toNat - 1 := by
    have hone : (1 : BitVec 32).toNat = 1 := rfl
    rw [BitVec.toNat_sub, BitVec.toNat_add, hone]
    omega
  rw [and_not_toNat ha, hsum, alignUp]

theorem alignUp_le_half {a : BitVec 32} (ha : PowTwo a) {n : ℕ} (hn : n ≤ 2 ^ 31) :
    alignUp n a.toNat ≤ 2 ^ 31 :=
  alignUp_le_of_dvd ha.pos ha.dvd_half hn

/-- `fls` finds the exponent of a power of two. -/
theorem one_shiftLeft_fls {a : BitVec 32} (ha : PowTwo a) :
    1#32 <<< ((fls a + 31) % 32) = a := by
  obtain ⟨k, hk⟩ := ha
  have hk32 := PowTwo.exp_lt hk
  have hall : ∀ k < 32, 1#32 <<< ((fls (BitVec.ofNat 32 (2 ^ k)) + 31) % 32) =
      BitVec.ofNat 32 (2 ^ k) := by decide
  have ha : a = BitVec.ofNat 32 (2 ^ k) := by
    rw [← hk, BitVec.ofNat_toNat, BitVec.setWidth_eq]
  rw [ha]
  exact hall k hk32

theorem powTwo_granule (sp : Space) : PowTwo sp.granule := by
  cases sp with
  | mem => exact ⟨20, by decide⟩
  | io => exact ⟨12, by decide⟩

theorem granule_lt (sp : Space) : sp.granule.toNat < 2 ^ 30 := by
  cases sp <;> decide

/-- `_pci_roundup` in numbers. -/
theorem roundup_eq_alignUp {v g : ℕ} (hg : 0 < g) :
    (v / g * g + if v % g ≠ 0 ∨ v = 0 then g else 0) = max g (alignUp v g) := by
  have hdm := Nat.div_add_mod v g
  rw [Nat.mul_comm] at hdm
  have hlt := Nat.mod_lt v hg
  by_cases h0 : v = 0
  · subst h0
    have hzero : alignUp 0 g = 0 := alignUp_of_dvd hg (Nat.dvd_zero g)
    simp [hzero]
  · by_cases hr : v % g = 0
    · have hdvd : g ∣ v := Nat.dvd_of_mod_eq_zero hr
      have hle : g ≤ v := Nat.le_of_dvd (by omega) hdvd
      rw [alignUp_of_dvd hg hdvd, Nat.max_eq_right hle, if_neg (by simp [h0, hr])]
      omega
    · have hup : alignUp v g = v / g * g + g :=
        alignUp_unique hg (Nat.dvd_add (Nat.dvd_mul_left _ _) (Nat.dvd_refl g)) (by omega)
          (by omega)
      rw [hup, if_pos (Or.inl hr), Nat.max_eq_right (by omega)]

/-- `_pci_roundup` on what is not negative as an `int`, or is the least one. -/
theorem pciRoundup_toNat (sp : Space) {v : BitVec 32} (hv : v.toNat ≤ 2 ^ 31) :
    (pciRoundup v sp.granule).toNat =
      max sp.granule.toNat (alignUp v.toNat sp.granule.toNat) := by
  have hg := (powTwo_granule sp).pos
  have hg30 := granule_lt sp
  have hround : sp.granule.toInt = (sp.granule.toNat : ℤ) :=
    BitVec.toInt_eq_toNat_of_lt (by omega)
  rcases Nat.eq_or_lt_of_le hv with heq | hlt
  · -- the least `int` is a multiple of both granules
    have hmin : v = BitVec.ofNat 32 (2 ^ 31) := by
      rw [← heq, BitVec.ofNat_toNat, BitVec.setWidth_eq]
    subst hmin
    cases sp <;> decide
  · have hval : v.toInt = (v.toNat : ℤ) := BitVec.toInt_eq_toNat_of_lt (by omega)
    have hdiv := Nat.div_mul_le_self v.toNat sp.granule.toNat
    rw [← roundup_eq_alignUp hg, pciRoundup, hval, hround, ← Int.ofNat_tdiv, ← Int.ofNat_tmod]
    simp only [ne_eq, Int.natCast_eq_zero]
    split
    · rw [← Int.natCast_mul, ← Int.natCast_add, BitVec.ofInt_natCast, BitVec.toNat_ofNat]
      exact Nat.mod_eq_of_lt (by omega)
    · rw [← Int.natCast_mul, BitVec.ofInt_natCast, BitVec.toNat_ofNat]
      exact Nat.mod_eq_of_lt (by omega)

/-! ## §2 The window of a bridge -/

/-- A window as an item to be packed. -/
def PciWin.item (pm : PciWin) : Item := ⟨pm.size.toNat, pm.align.toNat⟩

/-- The windows of a bus as items. -/
def items (pms : List PciWin) : List Item := pms.map PciWin.item

@[simp] theorem items_nil : items [] = [] := rfl

@[simp] theorem items_cons (pm : PciWin) (pms : List PciWin) :
    items (pm :: pms) = pm.item :: items pms := rfl

@[simp] theorem items_append (pms pms' : List PciWin) :
    items (pms ++ pms') = items pms ++ items pms' := List.map_append

theorem maxAlign_toNat (pms : List PciWin) : (maxAlign pms).toNat = widest (items pms) := by
  have h : ∀ (m : BitVec 32), (pms.foldl (fun max pm => if max < pm.align then pm.align else max)
      m).toNat = max m.toNat (widest (items pms)) := by
    induction pms with
    | nil => intro m; simp
    | cons pm pms ih =>
      intro m
      rw [List.foldl_cons, ih, items_cons, widest_cons]
      simp only [PciWin.item]
      split
      · rename_i hlt
        rw [BitVec.lt_def] at hlt
        omega
      · rename_i hge
        rw [BitVec.lt_def] at hge
        omega
  simp [maxAlign, h]

theorem sumSize_toNat (pms : List PciWin) :
    (sumSize pms).toNat = total (items pms) % 2 ^ 32 := by
  have h : ∀ (n : BitVec 32), (pms.foldl (fun size pm => size + pm.size) n).toNat =
      (n.toNat + total (items pms)) % 2 ^ 32 := by
    induction pms with
    | nil => intro n; simpa using (Nat.mod_eq_of_lt n.isLt).symm
    | cons pm pms ih =>
      intro n
      rw [List.foldl_cons, ih, items_cons, total_cons, PciWin.item, BitVec.toNat_add]
      simp only
      omega
  simp [sumSize, h]

/-- What a bridge needs for the items behind it. -/
def bridgeItem (granule : ℕ) (is : List Item) : Item :=
  ⟨max granule (alignUp (alignUp (total is) (widest is)) granule), max (widest is) granule⟩

theorem total_le_bridgeItem {granule : ℕ} (hg : 0 < granule) {is : List Item}
    (hpos : ∀ i ∈ is, 0 < i.align) : total is ≤ (bridgeItem granule is).size := by
  by_cases hnil : is = []
  · subst hnil
    exact Nat.zero_le _
  · obtain ⟨i, hi, hw⟩ := widest_mem hnil
    have h₁ := le_alignUp (total is) (hw ▸ hpos i hi : 0 < widest is)
    have h₂ := le_alignUp (alignUp (total is) (widest is)) hg
    simp only [bridgeItem]
    omega

/-- The largest of the alignments is a power of two, if there is one. -/
theorem powTwo_maxAlign {pms : List PciWin} (hpow : ∀ pm ∈ pms, PowTwo pm.align)
    (hne : pms ≠ []) : PowTwo (maxAlign pms) := by
  obtain ⟨i, hi, hw⟩ := @widest_mem (items pms) (by simpa [items] using hne)
  obtain ⟨pm, hpm, rfl⟩ := List.mem_map.mp hi
  obtain ⟨k, hk⟩ := hpow pm hpm
  exact ⟨k, by rw [maxAlign_toNat, hw]; exact hk⟩

theorem bridgeWindow_size (sp : Space) (device : ℕ) (child : Bool) {pms : List PciWin}
    (hpow : ∀ pm ∈ pms, PowTwo pm.align) (hle : ∀ pm ∈ pms, pm.align.toNat ≤ pm.size.toNat)
    (htotal : total (items pms) < 2 ^ 31) :
    (bridgeWindow sp device child pms).size.toNat =
      (bridgeItem sp.granule.toNat (items pms)).size := by
  by_cases hnil : pms = []
  · subst hnil
    simp only [bridgeWindow]
    cases sp <;> decide
  · have hmax := powTwo_maxAlign hpow hnil
    have hwide : widest (items pms) ≤ total (items pms) := by
      obtain ⟨i, hi, hw⟩ := @widest_mem (items pms) (by simpa [items] using hnil)
      obtain ⟨pm, hpm, rfl⟩ := List.mem_map.mp hi
      rw [hw]
      exact Nat.le_trans (hle pm hpm) (size_le_total hi)
    have hsum : (sumSize pms).toNat = total (items pms) := by
      rw [sumSize_toNat]
      exact Nat.mod_eq_of_lt (by omega)
    have hround : ((sumSize pms + maxAlign pms - 1) &&& ~~~(maxAlign pms - 1)).toNat =
        alignUp (total (items pms)) (widest (items pms)) := by
      rw [roundUp_toNat hmax (by rw [hsum, maxAlign_toNat]; omega), hsum, maxAlign_toNat]
    have hhalf : alignUp (total (items pms)) (widest (items pms)) ≤ 2 ^ 31 := by
      rw [← maxAlign_toNat]
      exact alignUp_le_half hmax (by omega)
    simp only [bridgeWindow, bridgeItem]
    rw [pciRoundup_toNat sp (by rw [hround]; exact hhalf), hround]

/-- The alignment of a bridge's window, as long as it is below half of the space. -/
theorem bridgeWindow_align (sp : Space) (device : ℕ) (child : Bool) {pms : List PciWin}
    (hwide : widest (items pms) < 2 ^ 31) :
    (bridgeWindow sp device child pms).align.toNat =
      (bridgeItem sp.granule.toNat (items pms)).align := by
  have hg := granule_lt sp
  have hmax := maxAlign_toNat pms
  have hslt : (maxAlign pms).slt sp.granule = decide (widest (items pms) < sp.granule.toNat) := by
    rw [BitVec.slt_eq_decide, BitVec.toInt_eq_toNat_of_lt (by omega),
      BitVec.toInt_eq_toNat_of_lt (by omega), hmax]
    simp
  simp only [bridgeWindow, bridgeItem, hslt, decide_eq_true_eq]
  split
  · omega
  · rw [hmax]
    omega

theorem powTwo_bridgeWindow (sp : Space) (device : ℕ) (child : Bool) {pms : List PciWin}
    (hpow : ∀ pm ∈ pms, PowTwo pm.align) : PowTwo (bridgeWindow sp device child pms).align := by
  simp only [bridgeWindow]
  split
  · exact powTwo_granule sp
  · rename_i hslt
    apply powTwo_maxAlign hpow
    rintro rfl
    revert hslt
    cases sp <;> decide

/-! ## §3 Handing out addresses -/

/-- What holds of every window that the scan lists. -/
structure PciWin.Sound (pm : PciWin) : Prop where
  pow : PowTwo pm.align
  setup : pm.setupAlign = pm.align
  mask : ∀ b, pm.bridge = some b → b.mask = ~~~(pm.align - 1)
  bar : pm.bridge = none → pm.size = pm.align

/-- The once more rounded address is the address, if that is aligned. -/
theorem PciWin.Sound.settle_eq {pm : PciWin} (h : pm.Sound) (sp : Space) {a : BitVec 32}
    (ha : pm.align.toNat ∣ a.toNat) (hle : a.toNat ≤ 2 ^ 31) : pm.settle sp a = a := by
  unfold PciWin.settle
  split
  · rename_i b hb
    rw [h.mask b hb, BitVec.not_not]
    have hsub : a + (pm.align - 1) = a + pm.align - 1 := by
      rw [BitVec.sub_eq_add_neg, BitVec.sub_eq_add_neg, BitVec.add_assoc]
    apply BitVec.eq_of_toNat_eq
    have hhalf := h.pow.le_half
    rw [hsub, roundUp_toNat h.pow (by omega), alignUp_of_dvd h.pow.pos ha]
  · rfl

/-- What `allocate` does, in numbers. -/
theorem allocate_some {secbus : SecBus} {size align : BitVec 32} (hpow : PowTwo align)
    (hmin : secbus.min.toNat ≤ 2 ^ 31)
    (hfit : alignUp secbus.min.toNat align.toNat + size.toNat ≤ secbus.next.toNat) :
    ∃ address secbus', allocate secbus size align = some (address, secbus') ∧
      address.toNat = alignUp secbus.min.toNat align.toNat ∧
      secbus'.min.toNat = alignUp secbus.min.toNat align.toNat + size.toNat ∧
      secbus'.next = secbus.next := by
  have hhalf := hpow.le_half
  have haddr := roundUp_toNat hpow (x := secbus.min) (by omega)
  have hle := le_alignUp secbus.min.toNat hpow.pos
  have hnext := secbus.next.isLt
  have hstop : (((secbus.min + align - 1) &&& ~~~(align - 1)) + size).toNat =
      alignUp secbus.min.toNat align.toNat + size.toNat := by
    rw [BitVec.toNat_add, haddr]
    exact Nat.mod_eq_of_lt (by omega)
  refine ⟨(secbus.min + align - 1) &&& ~~~(align - 1),
    ⟨((secbus.min + align - 1) &&& ~~~(align - 1)) + size, secbus.next⟩, ?_, haddr, hstop, rfl⟩
  rw [allocate, if_neg]
  rw [BitVec.lt_def, BitVec.lt_def, hstop]
  omega

theorem allocate_none {secbus : SecBus} {size align : BitVec 32} (hpow : PowTwo align)
    (hmin : secbus.min.toNat ≤ 2 ^ 31) (hsize : size.toNat < 2 ^ 31)
    (hfit : secbus.next.toNat < alignUp secbus.min.toNat align.toNat + size.toNat) :
    allocate secbus size align = none := by
  have hhalf := hpow.le_half
  have haddr := roundUp_toNat hpow (x := secbus.min) (by omega)
  have hup := alignUp_le_half hpow hmin
  have hstop : (((secbus.min + align - 1) &&& ~~~(align - 1)) + size).toNat =
      alignUp secbus.min.toNat align.toNat + size.toNat := by
    rw [BitVec.toNat_add, haddr]
    exact Nat.mod_eq_of_lt (by omega)
  rw [allocate, if_pos]
  left
  rw [BitVec.lt_def, hstop]
  exact hfit

/-- Every window gets an address of some sort. -/
theorem place_win (sp : Space) (pms : List PciWin) (secbus : SecBus) (pool : BitVec 32) :
    (place sp pms secbus pool).1.map Placed.win = pms := by
  induction pms generalizing secbus pool with
  | nil => rfl
  | cons pm pms ih =>
    rw [place]
    split <;> simp [ih]

theorem items_pos {pms : List PciWin} (h : ∀ pm ∈ pms, pm.Sound) :
    ∀ i ∈ items pms, 0 < i.align := by
  intro i hi
  obtain ⟨pm, hpm, rfl⟩ := List.mem_map.mp hi
  exact (h pm hpm).pow.pos

/-- **As long as there is room, addresses are handed out as items are packed.** -/
theorem place_pack (sp : Space) {pms : List PciWin} (hsound : ∀ pm ∈ pms, pm.Sound)
    (secbus : SecBus) (hnext : secbus.next.toNat ≤ 2 ^ 31) (pool : BitVec 32)
    (hfit : packEnd secbus.min.toNat (items pms) ≤ secbus.next.toNat) :
    (∀ p ∈ (place sp pms secbus pool).1, p.fellBack = false) ∧
      (place sp pms secbus pool).1.map (fun p => (p.address.toNat, p.win.item)) =
        pack secbus.min.toNat (items pms) := by
  induction pms generalizing secbus with
  | nil => exact ⟨by simp [place], rfl⟩
  | cons pm pms ih =>
    have hpm := hsound pm List.mem_cons_self
    have hrest : ∀ pm' ∈ pms, pm'.Sound := fun pm' h => hsound pm' (List.mem_cons_of_mem _ h)
    rw [items_cons, packEnd] at hfit
    have hend := le_packEnd (items_pos hrest)
      (alignUp secbus.min.toNat pm.item.align + pm.item.size)
    have hmin := le_alignUp secbus.min.toNat hpm.pow.pos
    simp only [PciWin.item] at hfit hend
    obtain ⟨a, secbus', halloc, ha, hmin', hnext'⟩ :=
      @allocate_some secbus pm.size pm.align hpm.pow (by omega) (by omega)
    have hsettle : pm.settle sp a = a :=
      hpm.settle_eq sp (ha ▸ dvd_alignUp _ _) (by omega)
    obtain ⟨hno, hpack⟩ := ih hrest secbus' (by rw [hnext']; exact hnext)
      (by rw [hnext', hmin']; exact hfit)
    rw [place, hpm.setup, halloc]
    simp only [hsettle]
    refine ⟨List.forall_mem_cons.mpr ⟨rfl, hno⟩, ?_⟩
    rw [List.map_cons, hpack, items_cons, pack, ha, hmin']
    rfl

/-- **If no window fell back, there was room for all.** -/
theorem packEnd_of_place (sp : Space) {pms : List PciWin} (hsound : ∀ pm ∈ pms, pm.Sound)
    (hsize : ∀ pm ∈ pms, pm.size.toNat < 2 ^ 31) (secbus : SecBus)
    (hmin : secbus.min.toNat ≤ secbus.next.toNat) (hnext : secbus.next.toNat ≤ 2 ^ 31)
    (pool : BitVec 32) (hno : ∀ p ∈ (place sp pms secbus pool).1, p.fellBack = false) :
    packEnd secbus.min.toNat (items pms) ≤ secbus.next.toNat := by
  induction pms generalizing secbus with
  | nil => exact hmin
  | cons pm pms ih =>
    have hpm := hsound pm List.mem_cons_self
    have hsz := hsize pm List.mem_cons_self
    rw [place, hpm.setup] at hno
    by_cases hfit : alignUp secbus.min.toNat pm.align.toNat + pm.size.toNat ≤ secbus.next.toNat
    · obtain ⟨a, secbus', halloc, -, hmin', hnext'⟩ := allocate_some hpm.pow (by omega) hfit
      rw [halloc] at hno
      have := ih (fun pm' h => hsound pm' (List.mem_cons_of_mem _ h))
        (fun pm' h => hsize pm' (List.mem_cons_of_mem _ h)) secbus'
        (by rw [hmin', hnext']; exact hfit) (by rw [hnext']; exact hnext)
        (List.forall_mem_cons.mp hno).2
      rw [hmin', hnext'] at this
      exact this
    · rw [allocate_none hpm.pow (by omega) hsz (by omega)] at hno
      have := (List.forall_mem_cons.mp hno).1
      simp at this

end Pmon.Pci
