import Pmon.Lib.Masks
import Pmon.Pci.WindowsRight

/-!
# Bridges with room for what is behind them

The bus behind a bridge gets its addresses from the window of the bridge, wherever that was put.  If
the sum for the window did not wrap, everything behind the bridge comes to lie inside.

## Key results

- `whole_busWindows`: the windows of a bus are multiples of their alignments.
- `right_of_roomy`: behind the bridges no window falls back.
- `busWindows_io_align`: what i/o windows are aligned to.
-/

namespace Pmon.Pci

open Pmon.Lib

/-! ## §1 Sums that do not wrap -/

/-- The window that a bridge asks for has room for the windows `pms` behind it, and is aligned as
    they have to be. -/
structure RoomFor (sp : Space) (pms : List PciWin) : Prop where
  room : total (items pms) ≤ (bridgeWindow sp 0 true pms).size.toNat
  align : ∀ pm ∈ pms, pm.align.toNat ≤ (bridgeWindow sp 0 true pms).align.toNat

/-- Every bridge has room for what is behind it. -/
def Bus.Roomy (sp : Space) : Bus Func → Prop
  | .none => True
  | .func _ _ _ rest => rest.Roomy sp
  | .bridge _ _ _ behind rest =>
    RoomFor sp ((query false 0 behind fun _ => []).1 sp) ∧ behind.Roomy sp ∧ rest.Roomy sp

theorem granule_dvd (sp : Space) : sp.granule.toNat ∣ 2 ^ 32 := by
  cases sp <;> decide

theorem granule_toInt (sp : Space) : sp.granule.toInt = (sp.granule.toNat : ℤ) := by
  cases sp <;> decide

/-- A multiple of the granule, as an `int`. -/
theorem granule_dvd_toInt {sp : Space} {v : BitVec 32} (h : sp.granule.toNat ∣ v.toNat) :
    (sp.granule.toNat : ℤ) ∣ v.toInt := by
  have hv : (sp.granule.toNat : ℤ) ∣ (v.toNat : ℤ) := Int.natCast_dvd_natCast.mpr h
  have hw : (sp.granule.toNat : ℤ) ∣ ((2 ^ 32 : ℕ) : ℤ) :=
    Int.natCast_dvd_natCast.mpr (granule_dvd sp)
  rw [BitVec.toInt_eq_toNat_cond]
  split
  · exact hv
  · exact Int.dvd_sub hv hw

/-- `_pci_roundup` always gives a multiple of the granule, if only modulo 2^32. -/
theorem dvd_pciRoundup (sp : Space) (v : BitVec 32) :
    sp.granule.toNat ∣ (pciRoundup v sp.granule).toNat := by
  have hw : (sp.granule.toNat : ℤ) ∣ ((2 ^ 32 : ℕ) : ℤ) :=
    Int.natCast_dvd_natCast.mpr (granule_dvd sp)
  have hofInt : ∀ z : ℤ, (sp.granule.toNat : ℤ) ∣ z →
      sp.granule.toNat ∣ (BitVec.ofInt 32 z).toNat := by
    intro z hz
    have hmod : (sp.granule.toNat : ℤ) ∣ z % ((2 ^ 32 : ℕ) : ℤ) := by
      rw [Int.emod_def]
      exact Int.dvd_sub hz (Dvd.dvd.mul_right hw _)
    rw [BitVec.toNat_ofInt]
    apply Int.natCast_dvd_natCast.mp
    rwa [Int.toNat_of_nonneg (Int.emod_nonneg _ (by decide))]
  apply hofInt
  rw [granule_toInt]
  split
  · exact Int.dvd_add (Dvd.intro_left _ rfl) (Int.dvd_refl _)
  · exact Dvd.intro_left _ rfl

/-- `_pci_roundup` of a multiple. -/
theorem pciRoundup_of_dvd {sp : Space} {v : BitVec 32} (h : sp.granule.toNat ∣ v.toNat)
    (hne : v ≠ 0) : pciRoundup v sp.granule = v := by
  have hint := granule_dvd_toInt h
  have hzero : v.toInt ≠ 0 := by
    intro h0
    exact hne (BitVec.eq_of_toInt_eq (by rw [h0]; rfl))
  rw [pciRoundup, granule_toInt, Int.tdiv_mul_cancel hint, if_neg, BitVec.ofInt_toInt]
  rintro (hmod | h0)
  · exact hmod (Int.tmod_eq_zero_of_dvd hint)
  · exact hzero h0

theorem pciRoundup_zero (sp : Space) : pciRoundup 0 sp.granule = sp.granule := by
  cases sp <;> decide

/-- The comparison of the alignments is one of `int`s. -/
theorem granule_le_of_not_slt {sp : Space} {m : BitVec 32} (h : ¬ m.slt sp.granule = true) :
    sp.granule.toNat ≤ m.toNat := by
  rw [BitVec.slt_eq_decide, decide_eq_true_eq, granule_toInt, BitVec.toInt_eq_toNat_cond] at h
  split at h <;> omega

theorem widest_le_total {is : List Item} (h : ∀ i ∈ is, Whole i) : widest is ≤ total is := by
  by_cases hnil : is = []
  · subst hnil
    exact Nat.le_refl 0
  · obtain ⟨i, hi, hw⟩ := widest_mem hnil
    rw [hw]
    exact Nat.le_trans (Nat.le_of_dvd (h i hi).pos (h i hi).dvd) (size_le_total hi)

/-- **The window of a bridge with room** is a multiple of its alignment. -/
theorem whole_bridgeWindow {sp : Space} {k : ℕ} {child : Bool} {pms : List PciWin}
    (hwhole : ∀ pm ∈ pms, Whole pm.item) (hroom : RoomFor sp pms) :
    Whole (bridgeWindow sp k child pms).item := by
  have hpow : PowTwo (bridgeWindow sp k child pms).align :=
    powTwo_bridgeWindow sp k child fun pm hpm => (hwhole pm hpm).pow
  have hgran := (powTwo_granule sp).pos
  by_cases hnil : pms = []
  · subst hnil
    refine ⟨hpow, ?_, ?_⟩ <;> simp only [bridgeWindow, PciWin.item] <;> cases sp <;> decide
  · have hmax := powTwo_maxAlign (fun pm hpm => (hwhole pm hpm).pow) hnil
    have hitems : ∀ i ∈ items pms, Whole i := by
      intro i hi
      obtain ⟨pm, hpm, rfl⟩ := List.mem_map.mp hi
      exact hwhole pm hpm
    have hwide : (maxAlign pms).toNat ≤ total (items pms) := by
      rw [maxAlign_toNat]
      exact widest_le_total hitems
    have hsize : total (items pms) ≤ (bridgeWindow sp k child pms).size.toNat := hroom.room
    have hpos : 0 < (bridgeWindow sp k child pms).size.toNat :=
      Nat.lt_of_lt_of_le (Nat.lt_of_lt_of_le hmax.pos hwide) hsize
    refine ⟨hpow, ?_, hpos⟩
    simp only [bridgeWindow, PciWin.item] at hsize ⊢
    split
    · exact dvd_pciRoundup sp _
    · -- the largest alignment is a multiple of the granule, which has nothing left to round then
      rename_i hslt
      have hle := granule_le_of_not_slt hslt
      have hgm := (powTwo_granule sp).dvd_of_le hmax hle
      have hdvd : (maxAlign pms).toNat ∣
          ((sumSize pms + maxAlign pms - 1) &&& ~~~(maxAlign pms - 1)).toNat := by
        rw [and_not_toNat hmax]
        exact Nat.dvd_mul_left _ _
      by_cases h0 : (sumSize pms + maxAlign pms - 1) &&& ~~~(maxAlign pms - 1) = 0
      · rw [h0, pciRoundup_zero] at hsize ⊢
        rw [Nat.le_antisymm (Nat.le_trans hwide hsize) hle]
      · rw [pciRoundup_of_dvd (Nat.dvd_trans hgm hdvd) h0]
        exact hdvd

/-- **The windows of a bus** are multiples of their alignments. -/
theorem whole_busWindows {sp : Space} (onRoot : Bool) {k : ℕ} {t : Bus Func}
    (h : t.BarsPowTwo) (hroomy : t.Roomy sp) : ∀ pm ∈ busWindows sp onRoot k t, Whole pm.item := by
  induction t generalizing k onRoot with
  | none => simp [busWindows]
  | func _ _ f rest ih =>
    intro pm hpm
    rcases List.mem_append.mp hpm with hmem | hmem
    · have hs := funcWindows_sound h.1 pm hmem
      have hbar : pm.bridge = none := by
        obtain ⟨p, -, rfl⟩ := List.mem_map.mp hmem
        rfl
      refine ⟨hs.pow, ?_, ?_⟩
      · simp [PciWin.item, hs.bar hbar]
      · simpa [PciWin.item, hs.bar hbar] using hs.pow.pos
    · exact ih onRoot h.2 hroomy pm hmem
  | bridge _ _ _ behind rest ihb ihr =>
    obtain ⟨hroom, hbehind, hrest⟩ := hroomy
    intro pm hpm
    rcases List.mem_cons.mp hpm with rfl | hmem
    · exact whole_bridgeWindow (fun pm' hpm' => ihb false h.1 hbehind pm' (mem_query.mp hpm')) hroom
    · exact ihr onRoot h.2 hrest pm hmem

/-- The list of a bus is in the order that leaves no gaps. -/
theorem tight_of_roomy {sp : Space} {onRoot : Bool} {t : Bus Func} (h : t.BarsPowTwo)
    (hroomy : t.Roomy sp) : Tight (items ((query onRoot 0 t fun _ => []).1 sp)) := by
  have hwhole : ∀ i ∈ items ((query onRoot 0 t fun _ => []).1 sp), Whole i := by
    intro i hi
    obtain ⟨pm, hpm, rfl⟩ := List.mem_map.mp hi
    exact whole_busWindows onRoot h hroomy pm (mem_query.mp hpm)
  refine ⟨fun i hi => (hwhole i hi).align_pos, fun i hi => (hwhole i hi).dvd, ?_⟩
  rw [items, List.pairwise_map]
  have hsorted := query_sorted sp onRoot 0 t (l := fun _ => []) List.Pairwise.nil
  refine hsorted.imp_of_mem fun {a b} ha hb hle => ?_
  have hpow : ∀ pm ∈ (query onRoot 0 t fun _ => []).1 sp, PowTwo pm.align := fun pm hpm =>
    (busWindows_sound onRoot h pm (mem_query.mp hpm)).pow
  exact (hpow b hb).dvd_of_le (hpow a ha) hle

/-! ## §2 The bus behind a bridge -/

theorem PowTwo.dvd_word {a : BitVec 32} (ha : PowTwo a) : a.toNat ∣ 2 ^ 32 :=
  Nat.dvd_trans ha.dvd_half ⟨2, rfl⟩

/-- The once more rounded address is the address wherever that is aligned. -/
theorem PciWin.Sound.settle_of_dvd {pm : PciWin} (h : pm.Sound) (sp : Space) {a : BitVec 32}
    (ha : pm.align.toNat ∣ a.toNat) : pm.settle sp a = a := by
  -- no multiple of the alignment is so close to the end of the space that the sum wraps
  have hroom : a.toNat + pm.align.toNat ≤ 2 ^ 32 := by
    have := Nat.le_of_dvd (Nat.sub_pos_of_lt a.isLt) (Nat.dvd_sub h.pow.dvd_word ha)
    omega
  unfold PciWin.settle
  split
  · rename_i b hb
    have hsub : a + (pm.align - 1) = a + pm.align - 1 := by
      rw [BitVec.sub_eq_add_neg, BitVec.sub_eq_add_neg, BitVec.add_assoc]
    apply BitVec.eq_of_toNat_eq
    rw [h.mask b hb, BitVec.not_not, hsub, roundUp_toNat h.pow hroom,
      alignUp_of_dvd h.pow.pos ha]
  · rfl

/-- `allocate` where there is room, anywhere in the address space. -/
theorem allocate_of_fit {secbus : SecBus} {size align : BitVec 32} (hpow : PowTwo align)
    (hle : align.toNat ≤ size.toNat)
    (hfit : alignUp secbus.min.toNat align.toNat + size.toNat ≤ secbus.next.toNat) :
    ∃ address secbus', allocate secbus size align = some (address, secbus') ∧
      address.toNat = alignUp secbus.min.toNat align.toNat ∧
      secbus'.min.toNat = alignUp secbus.min.toNat align.toNat + size.toNat ∧
      secbus'.next = secbus.next := by
  have hnext := secbus.next.isLt
  have hup := le_alignUp secbus.min.toNat hpow.pos
  have haddr := roundUp_toNat hpow (x := secbus.min) (by omega)
  have hstop : (((secbus.min + align - 1) &&& ~~~(align - 1)) + size).toNat =
      alignUp secbus.min.toNat align.toNat + size.toNat := by
    rw [BitVec.toNat_add, haddr]
    exact Nat.mod_eq_of_lt (by omega)
  refine ⟨_, ⟨((secbus.min + align - 1) &&& ~~~(align - 1)) + size, secbus.next⟩, ?_, haddr,
    hstop, rfl⟩
  rw [allocate, if_neg]
  rw [BitVec.lt_def, BitVec.lt_def, hstop]
  omega

/-- Addresses are handed out as items are packed, anywhere in the address space. -/
theorem place_of_fit (sp : Space) {pms : List PciWin} (hsound : ∀ pm ∈ pms, pm.Sound)
    (hwhole : ∀ pm ∈ pms, Whole pm.item) (secbus : SecBus) (pool : BitVec 32)
    (hfit : packEnd secbus.min.toNat (items pms) ≤ secbus.next.toNat) :
    (∀ p ∈ (place sp pms secbus pool).1, p.fellBack = false) ∧
      (place sp pms secbus pool).1.map (fun p => (p.address.toNat, p.win.item)) =
        pack secbus.min.toNat (items pms) := by
  induction pms generalizing secbus with
  | nil => exact ⟨by simp [place], rfl⟩
  | cons pm pms ih =>
    have hpm := hsound pm List.mem_cons_self
    have hw := hwhole pm List.mem_cons_self
    have hrest : ∀ pm' ∈ pms, pm'.Sound := fun pm' h => hsound pm' (List.mem_cons_of_mem _ h)
    rw [items_cons, packEnd] at hfit
    have hend := le_packEnd (items_pos hrest)
      (alignUp secbus.min.toNat pm.item.align + pm.item.size)
    simp only [PciWin.item] at hfit hend
    obtain ⟨a, secbus', halloc, ha, hmin', hnext'⟩ :=
      @allocate_of_fit secbus pm.size pm.align hpm.pow (Nat.le_of_dvd hw.pos hw.dvd) (by omega)
    have hsettle : pm.settle sp a = a := hpm.settle_of_dvd sp (ha ▸ dvd_alignUp _ _)
    obtain ⟨hno, hpack⟩ := ih hrest (fun pm' h => hwhole pm' (List.mem_cons_of_mem _ h)) secbus'
      (by rw [hnext', hmin']; exact hfit)
    rw [place, hpm.setup, halloc]
    simp only [hsettle]
    refine ⟨List.forall_mem_cons.mpr ⟨rfl, hno⟩, ?_⟩
    rw [List.map_cons, hpack, items_cons, pack, ha, hmin']
    rfl

/-- The windows on a bus are aligned, and those of the bridges end below the last address. -/
structure BusBelow (ps : List Placed) : Prop where
  aligned : ∀ p ∈ ps, p.required ∣ p.address.toNat
  below : ∀ p ∈ ps, p.win.bridge.isSome → p.stop < 2 ^ 32

theorem windowOf_bridge {ps : List Placed} {k : ℕ} {w : Placed} (h : windowOf ps k = some w) :
    w.win.device = k ∧ w.win.bridge.isSome := by
  have hprop := List.find?_some h
  simpa only [decide_eq_true_eq] using hprop

/-- The bus behind a bridge has the addresses of the window, if its end does not wrap. -/
theorem secbusOf_of_lt {ps : List Placed} {k : ℕ} {w : Placed} (hw : windowOf ps k = some w)
    (hstop : w.stop < 2 ^ 32) :
    (secbusOf ps k).min.toNat = w.address.toNat ∧ (secbusOf ps k).next.toNat = w.stop := by
  simp only [secbusOf, hw]
  refine ⟨trivial, ?_⟩
  rw [BitVec.toNat_add]
  exact Nat.mod_eq_of_lt hstop

section Behind

variable {sp : Space} {onRoot : Bool} {ps : List Placed} {k : ℕ} {w : Placed} {t : Bus Func}

/-- What is behind a bridge with room leaves no gap in the window of the bridge. -/
theorem packEnd_le_of_room (h : t.BarsPowTwo) (hroomy : t.Roomy sp)
    (hroom : RoomFor sp ((query false 0 t fun _ => []).1 sp)) {child : Bool}
    (hwin : w.win = bridgeWindow sp k child ((query false 0 t fun _ => []).1 sp))
    (hsound : w.win.Sound) (haligned : w.required ∣ w.address.toNat) :
    packEnd w.address.toNat (items ((query false 0 t fun _ => []).1 sp)) ≤ w.stop := by
  rw [hsound.required_eq] at haligned
  have hdvd : ∀ i ∈ items ((query false 0 t fun _ => []).1 sp), i.align ∣ w.address.toNat := by
    intro i hi
    obtain ⟨pm, hpm, rfl⟩ := List.mem_map.mp hi
    have hpow := (busWindows_sound false h pm (mem_query.mp hpm)).pow
    have hle : pm.align.toNat ≤ w.win.align.toNat := by
      rw [hwin]
      exact hroom.align pm hpm
    exact Nat.dvd_trans (hpow.dvd_of_le hsound.pow hle) haligned
  rw [packEnd_of_dvd (tight_of_roomy h hroomy) hdvd, Placed.stop, hwin]
  exact Nat.add_le_add_left hroom.room _

/-- The windows on the bus behind a bridge with room are right, and inside the window of the
    bridge. -/
theorem placedBehind_of_room (h : t.BarsPowTwo) (hroomy : t.Roomy sp)
    (hroom : RoomFor sp ((query false 0 t fun _ => []).1 sp)) {child : Bool}
    (hw : windowOf ps k = some w) (hps : BusBelow ps)
    (hwin : w.win = bridgeWindow sp k child ((query false 0 t fun _ => []).1 sp))
    (hsound : w.win.Sound) (pool : BitVec 32) :
    BusRight (placedBehind sp ps k t pool) ∧ ∀ p ∈ placedBehind sp ps k t pool, p.Inside w := by
  have hmem := windowOf_mem hw
  obtain ⟨hmin, hnext⟩ := secbusOf_of_lt hw (hps.below w hmem (windowOf_bridge hw).2)
  have hfit := packEnd_le_of_room h hroomy hroom hwin hsound (hps.aligned w hmem)
  have hlist : ∀ pm ∈ (query false 0 t fun _ => []).1 sp, pm.Sound := fun pm hpm =>
    busWindows_sound false h pm (mem_query.mp hpm)
  have hwhole : ∀ pm ∈ (query false 0 t fun _ => []).1 sp, Whole pm.item := fun pm hpm =>
    whole_busWindows false h hroomy pm (mem_query.mp hpm)
  obtain ⟨hno, hpack⟩ := place_of_fit sp hlist hwhole (secbusOf ps k) pool
    (by rw [hmin, hnext]; exact hfit)
  rw [hmin] at hpack
  obtain ⟨hright, hin⟩ := busRight_of_pack (placedBehind_sound h ps k pool) (items_pos hlist)
    hno hpack
  exact ⟨hright, fun p hp => ⟨(hin p hp).1, Nat.le_trans (hin p hp).2 hfit⟩⟩

/-- **Behind bridges with room every window is right**, wherever the windows of the bridges were
    put. -/
theorem right_of_roomy (t : Bus Func) (h : t.BarsPowTwo) (hroomy : t.Roomy sp) (k : ℕ)
    (l : Space → List PciWin) (ps : Space → List Placed) (pool : Space → BitVec 32)
    (hcome : ToCome sp onRoot (ps sp) k t) (hps : BusBelow (ps sp)) :
    (setupBehind ps k (query onRoot k t l).2 pool).1.Right sp (ps sp) k := by
  induction t generalizing onRoot k l ps pool with
  | none => trivial
  | func _ _ f rest ih => exact ih h.2 hroomy (k + 1) _ ps pool hcome.func hps
  | bridge _ _ _ behind rest ihb ihr =>
    obtain ⟨hroom, hbehind, hrest⟩ := hroomy
    obtain ⟨hnext, w, hwps, hw, hwin⟩ := hcome.bridge
    have hsound : w.win.Sound := by
      rw [hwin]
      exact busWindows_sound onRoot (t := .bridge _ _ _ behind rest) h _ List.mem_cons_self
    obtain ⟨hright, hin⟩ := placedBehind_of_room h.1 hbehind hroom hw hps hwin hsound (pool sp)
    have hstop := hps.below w hwps (windowOf_bridge hw).2
    have hbelow : BusBelow (placedBehind sp (ps sp) k behind (pool sp)) :=
      ⟨hright.aligned, fun p hp _ => Nat.lt_of_le_of_lt (hin p hp).2 hstop⟩
    have hdown := ihb h.1 hbehind 0 (fun _ => [])
      (fun sp' => placedBehind sp' (ps sp') k behind (pool sp'))
      (fun sp' => (place sp' ((query false 0 behind fun _ => []).1 sp') (secbusOf (ps sp') k)
        (pool sp')).2) (toCome_placedBehind sp (ps sp) k behind (pool sp)) hbelow
    refine ⟨⟨w, hw, fun p hp => ?_⟩, hright, hdown, ihr h.2 hrest (k + 1) _ ps _ hnext hps⟩
    rcases List.mem_append.mp hp with hmem | hmem
    · exact hin p hmem
    · -- further down, inside a window of the bus behind the bridge
      obtain ⟨q, hq, hpq⟩ := hdown.inside p hmem
      exact hpq.trans (hin q hq)

end Behind

/-! ## §3 I/o windows -/

/-- The size of an i/o register whose mask is `m`: the upper half is taken to be ones. -/
theorem ioSize_le (m : BitVec 32) :
    (-((m ||| 0xffff0000#32) &&& 0xfffffff8#32)).toNat ≤ 2 ^ 16 := by
  have hbits : ((m ||| 0xffff0000#32) &&& 0xfffffff8#32) &&& 0xffff0000#32 = 0xffff0000#32 := by
    rw [BitVec.and_assoc, show 0xfffffff8#32 &&& 0xffff0000#32 = 0xffff0000#32 from rfl]
    ext i hi
    simpa only [BitVec.getElem_and, BitVec.getElem_or, Bool.and_eq_right_iff_imp,
      Bool.or_eq_true] using Or.inr
  have hlow : 0xffff0000 ≤ ((m ||| 0xffff0000#32) &&& 0xfffffff8#32).toNat := by
    have hand := congrArg BitVec.toNat hbits
    rw [BitVec.toNat_and] at hand
    exact Nat.le_trans (Nat.le_of_eq hand.symm) Nat.and_le_left
  rw [BitVec.toNat_neg]
  omega

theorem probeBars_io (mask : ℕ → BitVec 32) (regs : List ℕ) (skip : Bool) :
    ∀ p ∈ probeBars mask regs skip, p.space = .io → p.size.toNat ≤ 2 ^ 16 := by
  fun_induction probeBars mask regs skip with
  | case1 => simp
  | case2 _ _ ih => exact ih
  | case3 _ _ _ _ ih => exact ih
  | case4 _ _ m _ _ ih =>
    refine List.forall_mem_cons.mpr ⟨fun _ => ?_, ih⟩
    exact ioSize_le m
  | case5 _ _ _ _ _ _ ih => exact ih
  | case6 _ _ _ _ _ _ ih => exact List.forall_mem_cons.mpr ⟨fun h => by simp at h, ih⟩

theorem probe_io {onRoot : Bool} {f : Func} :
    ∀ p ∈ f.probe onRoot, p.space = .io → p.size.toNat ≤ 2 ^ 16 := by
  intro p hp hio
  unfold Func.probe at hp
  split at hp
  · simp at hp
  · rcases List.mem_append.mp hp with hbar | hrom
    · exact probeBars_io _ _ _ p hbar hio
    · simp only [probeRom] at hrom
      split at hrom
      · rw [List.mem_singleton.mp hrom] at hio
        simp at hio
      · simp at hrom

/-- **I/o windows** are aligned to 64 KB at most. -/
theorem busWindows_io_align (onRoot : Bool) {k : ℕ} {t : Bus Func} :
    ∀ pm ∈ busWindows .io onRoot k t, pm.align.toNat ≤ 2 ^ 16 := by
  induction t generalizing k onRoot with
  | none => simp [busWindows]
  | func _ _ f rest ih =>
    intro pm hpm
    rcases List.mem_append.mp hpm with hmem | hmem
    · obtain ⟨p, hp, rfl⟩ := List.mem_map.mp hmem
      obtain ⟨hprobe, hspace⟩ := List.mem_filter.mp hp
      exact probe_io p hprobe (by simpa using hspace)
    · exact ih onRoot pm hmem
  | bridge _ _ _ behind rest ihb ihr =>
    intro pm hpm
    rcases List.mem_cons.mp hpm with rfl | hmem
    · simp only [bridgeWindow]
      split
      · decide
      · -- the largest of the alignments behind the bridge
        rw [maxAlign_toNat]
        by_cases hnil : items ((query false 0 behind fun _ => []).1 .io) = []
        · rw [hnil]
          decide
        · obtain ⟨i, hi, hw⟩ := widest_mem hnil
          obtain ⟨pm, hpm, rfl⟩ := List.mem_map.mp hi
          rw [hw]
          exact ihb false pm (mem_query.mp hpm)
    · exact ihr onRoot pm hmem

end Pmon.Pci
