import Mathlib.Data.List.Pairwise
import Pmon.Pci.RoomyWindows

/-!
# Windows from the overflow area

A window for which the root bus has no room left gets an address behind `pci_bigmem_address`, which
starts at 0x40000000, or `pci_bigio_address`.  With `pci_probe_only` the addresses of the root bus
itself start 1 MB behind that.

## Key results

- `filter_granted`, `filter_refused`: both kinds of windows are packed, each in its own area.
- `overflowClear_low`: without `pci_probe_only` these never meet.
- `setupWindows_overflow`: as long as no sum wraps, all windows of the tree are apart and aligned
  exactly when the overflow area stays clear of what the root bus has handed out.
-/

namespace Pmon.Pci

open Pmon.Lib

/-! ## §1 Granted and refused -/

/-- `pci_bigmem_address` and `pci_bigio_address`. -/
def bigAddress : Space → BitVec 32
  | .mem => 0x40000000
  | .io => 0x10000

/-- The windows to which `_pci_allocate_mem` or `_pci_allocate_io` gives an address. -/
def granted : SecBus → List PciWin → List PciWin
  | _, [] => []
  | secbus, pm :: rest =>
    match allocate secbus pm.size pm.setupAlign with
    | some (_, secbus') => pm :: granted secbus' rest
    | none => granted secbus rest

/-- The windows that they refuse. -/
def refused : SecBus → List PciWin → List PciWin
  | _, [] => []
  | secbus, pm :: rest =>
    match allocate secbus pm.size pm.setupAlign with
    | some (_, secbus') => refused secbus' rest
    | none => pm :: refused secbus rest

/-- Where in the overflow area a window of `size` bytes goes if everything below `n` is taken.  For
    memory no bit of `size - 1` remains; i/o addresses are not rounded. -/
def Space.overflowAt (sp : Space) (n size : ℕ) : ℕ :=
  match sp with
  | .mem => (n + size - 1) - ((n + size - 1) &&& (size - 1))
  | .io => n

/-- Windows one after the other in the overflow area, in numbers that do not wrap. -/
def Space.overflow (sp : Space) : ℕ → List PciWin → List (ℕ × PciWin)
  | _, [] => []
  | n, pm :: rest =>
    let a := sp.overflowAt n pm.size.toNat
    (a, pm) :: sp.overflow (a + pm.size.toNat) rest

/-- The windows end within the address space, those of bridges before its last address. -/
def InSpace (xs : List (ℕ × PciWin)) : Prop :=
  ∀ x ∈ xs, x.1 + x.2.size.toNat ≤ 2 ^ 32 ∧
    (x.2.bridge.isSome → x.1 + x.2.size.toNat < 2 ^ 32)

instance (xs : List (ℕ × PciWin)) : Decidable (InSpace xs) :=
  inferInstanceAs (Decidable (∀ x ∈ xs, _))

theorem granted_sublist (secbus : SecBus) (pms : List PciWin) :
    (granted secbus pms).Sublist pms := by
  fun_induction granted secbus pms with
  | case1 => exact .slnil
  | case2 _ _ _ _ _ _ ih => exact ih.cons_cons _
  | case3 _ _ _ _ ih => exact ih.cons _

theorem refused_sublist (secbus : SecBus) (pms : List PciWin) :
    (refused secbus pms).Sublist pms := by
  fun_induction refused secbus pms with
  | case1 => exact .slnil
  | case2 _ _ _ _ _ _ ih => exact ih.cons _
  | case3 _ _ _ _ ih => exact ih.cons_cons _

theorem le_overflowAt (sp : Space) (n size : ℕ) (hpos : 0 < size) :
    n ≤ sp.overflowAt n size := by
  cases sp with
  | mem =>
    have hand : (n + size - 1) &&& (size - 1) ≤ size - 1 := Nat.and_le_right
    simp only [Space.overflowAt]
    omega
  | io => exact Nat.le_refl n

/-- **Rounding with the size of a window aligns it**, if the size is a multiple of its alignment:
    the bits below that are all set in `size - 1`. -/
theorem dvd_overflowAt {a size : ℕ} (ha : ∃ k, a = 2 ^ k) (hdvd : a ∣ size) (hpos : 0 < size)
    (n : ℕ) : a ∣ Space.mem.overflowAt n size := by
  obtain ⟨k, rfl⟩ := ha
  obtain ⟨c, rfl⟩ := hdvd
  have hk := Nat.two_pow_pos k
  have hc : 0 < c := Nat.pos_of_mul_pos_left hpos
  have hlow : (2 ^ k * c - 1) % 2 ^ k = 2 ^ k - 1 := by
    obtain ⟨d, rfl⟩ := Nat.exists_eq_succ_of_ne_zero hc.ne'
    rw [Nat.mul_succ, Nat.add_sub_assoc hk, Nat.mul_add_mod, Nat.mod_eq_of_lt (by omega)]
  have hmod : ((n + 2 ^ k * c - 1) &&& (2 ^ k * c - 1)) % 2 ^ k = (n + 2 ^ k * c - 1) % 2 ^ k := by
    rw [Nat.and_mod_two_pow, hlow, Nat.and_two_pow_sub_one_eq_mod, Nat.mod_mod]
  exact (Nat.modEq_iff_dvd' Nat.and_le_left).mp hmod

theorem overflow_le {sp : Space} {pms : List PciWin} (hsize : ∀ pm ∈ pms, 0 < pm.size.toNat)
    (n : ℕ) : ∀ x ∈ sp.overflow n pms, n ≤ x.1 := by
  induction pms generalizing n with
  | nil => simp [Space.overflow]
  | cons pm pms ih =>
    have hle := le_overflowAt sp n pm.size.toNat (hsize pm List.mem_cons_self)
    refine List.forall_mem_cons.mpr ⟨hle, fun x hx => ?_⟩
    have := ih (fun pm' h => hsize pm' (List.mem_cons_of_mem _ h)) _ x hx
    omega

/-- The windows in the overflow area are apart. -/
theorem overflow_disjoint {sp : Space} {pms : List PciWin}
    (hsize : ∀ pm ∈ pms, 0 < pm.size.toNat) (n : ℕ) :
    (sp.overflow n pms).Pairwise fun x y => x.1 + x.2.size.toNat ≤ y.1 := by
  induction pms generalizing n with
  | nil => simp [Space.overflow]
  | cons pm pms ih =>
    have hrest : ∀ pm' ∈ pms, 0 < pm'.size.toNat := fun pm' h =>
      hsize pm' (List.mem_cons_of_mem _ h)
    exact List.pairwise_cons.mpr ⟨fun y hy => overflow_le hrest _ y hy, ih hrest _⟩

theorem overflow_mem {sp : Space} {n : ℕ} {pms : List PciWin} :
    ∀ x ∈ sp.overflow n pms, x.2 ∈ pms := by
  induction pms generalizing n with
  | nil => simp [Space.overflow]
  | cons pm pms ih =>
    refine List.forall_mem_cons.mpr ⟨List.mem_cons_self, fun x hx => ?_⟩
    exact List.mem_cons_of_mem _ (ih x hx)

theorem overflow_mem_aligned {pms : List PciWin} (hwhole : ∀ pm ∈ pms, Whole pm.item) (n : ℕ) :
    ∀ x ∈ Space.mem.overflow n pms, x.2.align.toNat ∣ x.1 := by
  induction pms generalizing n with
  | nil => simp [Space.overflow]
  | cons pm pms ih =>
    have hpm := hwhole pm List.mem_cons_self
    refine List.forall_mem_cons.mpr ⟨dvd_overflowAt hpm.pow hpm.dvd hpm.pos n, fun x hx => ?_⟩
    exact ih (fun pm' h => hwhole pm' (List.mem_cons_of_mem _ h)) _ x hx

/-- I/o windows need no rounding, as they come in the order of their alignments. -/
theorem overflow_io_aligned {pms : List PciWin} (h : Tight (items pms)) {n : ℕ}
    (hn : ∀ pm ∈ pms, pm.align.toNat ∣ n) :
    ∀ x ∈ Space.io.overflow n pms, x.2.align.toNat ∣ x.1 := by
  induction pms generalizing n with
  | nil => simp [Space.overflow]
  | cons pm pms ih =>
    have hpm := hn pm List.mem_cons_self
    refine List.forall_mem_cons.mpr ⟨hpm, fun x hx => ih h.tail (fun pm' hpm' => ?_) x hx⟩
    have hdesc : pm'.align.toNat ∣ pm.align.toNat :=
      (List.pairwise_cons.mp h.descending).1 _ (List.mem_map_of_mem hpm')
    exact Nat.dvd_add (hn pm' (List.mem_cons_of_mem _ hpm'))
      (Nat.dvd_trans hdesc (h.whole _ List.mem_cons_self))

/-! ## §2 Both in one loop -/

/-- What `fallBack` does as long as it does not wrap.  The pool may have come to the end of the
    address space and read zero. -/
theorem fallBack_toNat {sp : Space} {pool size : BitVec 32} {n : ℕ}
    (hpool : pool.toNat = n % 2 ^ 32) (hpos : 0 < size.toNat)
    (hfits : sp.overflowAt n size.toNat + size.toNat ≤ 2 ^ 32) :
    (sp.fallBack pool size).1.toNat = sp.overflowAt n size.toNat ∧
      (sp.fallBack pool size).2.toNat = (sp.overflowAt n size.toNat + size.toNat) % 2 ^ 32 := by
  have hle := le_overflowAt sp n size.toNat hpos
  have hn : pool.toNat = n := by omega
  cases sp with
  | mem =>
    have hone : (1 : BitVec 32).toNat = 1 := rfl
    have hsum : (pool + size - 1).toNat = n + size.toNat - 1 := by
      rw [BitVec.toNat_sub, BitVec.toNat_add, hone]
      omega
    have hsub : (size - 1).toNat = size.toNat - 1 := by
      rw [BitVec.toNat_sub, hone]
      omega
    have hparts := toNat_and_add_and_not (pool + size - 1) (size - 1)
    rw [BitVec.toNat_and, hsum, hsub] at hparts
    have haddr : ((pool + size - 1) &&& ~~~(size - 1)).toNat =
        Space.mem.overflowAt n size.toNat := by
      simp only [Space.overflowAt]
      omega
    exact ⟨haddr, by rw [Space.fallBack, BitVec.toNat_add, haddr]⟩
  | io => exact ⟨hn, by rw [Space.fallBack, BitVec.toNat_add, hn]; rfl⟩

/-- `allocate` refuses what does not fit, also if the sum wraps. -/
theorem allocate_of_not_fit {secbus : SecBus} {size align : BitVec 32} (hpow : PowTwo align)
    (hdvd : align.toNat ∣ size.toNat) (hmin : secbus.min.toNat ≤ 2 ^ 31)
    (hfit : secbus.next.toNat < alignUp secbus.min.toNat align.toNat + size.toNat) :
    allocate secbus size align = none := by
  have hhalf := hpow.le_half
  have haddr := roundUp_toNat hpow (x := secbus.min) (by omega)
  have hlt := alignUp_lt secbus.min.toNat hpow.pos
  -- the size is no closer to the end of the space than the alignment
  have hroom : size.toNat + align.toNat ≤ 2 ^ 32 := by
    have := Nat.le_of_dvd (Nat.sub_pos_of_lt size.isLt) (Nat.dvd_sub hpow.dvd_word hdvd)
    omega
  rw [allocate, if_pos]
  rw [BitVec.lt_def, BitVec.lt_def, BitVec.toNat_add, haddr]
  omega

section Place

variable {sp : Space} {pms : List PciWin}

/-- **The granted windows are packed** from the first address of the bus on. -/
theorem filter_granted (hsound : ∀ pm ∈ pms, pm.Sound) (hwhole : ∀ pm ∈ pms, Whole pm.item)
    (secbus : SecBus) (hmin : secbus.min.toNat ≤ secbus.next.toNat)
    (hnext : secbus.next.toNat ≤ 2 ^ 31) (pool : BitVec 32) :
    ((place sp pms secbus pool).1.filter fun p => !p.fellBack).map
        (fun p => (p.address.toNat, p.win.item)) =
      pack secbus.min.toNat (items (granted secbus pms)) ∧
      packEnd secbus.min.toNat (items (granted secbus pms)) ≤ secbus.next.toNat := by
  induction pms generalizing secbus pool with
  | nil => exact ⟨rfl, hmin⟩
  | cons pm pms ih =>
    have hpm := hsound pm List.mem_cons_self
    have hw := hwhole pm List.mem_cons_self
    have hsound' : ∀ pm' ∈ pms, pm'.Sound := fun pm' h => hsound pm' (List.mem_cons_of_mem _ h)
    have hwhole' : ∀ pm' ∈ pms, Whole pm'.item := fun pm' h =>
      hwhole pm' (List.mem_cons_of_mem _ h)
    by_cases hfit : alignUp secbus.min.toNat pm.align.toNat + pm.size.toNat ≤ secbus.next.toNat
    · obtain ⟨a, secbus', halloc, ha, hmin', hnext'⟩ :=
        allocate_of_fit hpm.pow (Nat.le_of_dvd hw.pos hw.dvd) hfit
      have hsettle : pm.settle sp a = a := hpm.settle_of_dvd sp (ha ▸ dvd_alignUp _ _)
      have hrest := ih hsound' hwhole' secbus' (by rw [hmin', hnext']; exact hfit)
        (by rw [hnext']; exact hnext) pool
      rw [hmin', hnext'] at hrest
      rw [place, granted, hpm.setup, halloc]
      refine ⟨?_, hrest.2⟩
      rw [List.filter_cons_of_pos rfl, List.map_cons, hrest.1, hsettle, ha]
      rfl
    · rw [place, granted, hpm.setup, allocate_of_not_fit hpm.pow hw.dvd (by omega) (by omega)]
      dsimp only
      rw [List.filter_cons_of_neg (by simp)]
      exact ih hsound' hwhole' secbus hmin hnext _

/-- **The refused windows come one after the other** in the overflow area. -/
theorem filter_refused (hsound : ∀ pm ∈ pms, pm.Sound) (hwhole : ∀ pm ∈ pms, Whole pm.item)
    (secbus : SecBus) {pool : BitVec 32} {n : ℕ} (hpool : pool.toNat = n % 2 ^ 32)
    (hspace : InSpace (sp.overflow n (refused secbus pms))) :
    ((place sp pms secbus pool).1.filter fun p => p.fellBack).map
        (fun p => (p.address.toNat, p.win)) = sp.overflow n (refused secbus pms) := by
  induction pms generalizing secbus pool n with
  | nil => rfl
  | cons pm pms ih =>
    have hpm := hsound pm List.mem_cons_self
    have hw := hwhole pm List.mem_cons_self
    have hsound' : ∀ pm' ∈ pms, pm'.Sound := fun pm' h => hsound pm' (List.mem_cons_of_mem _ h)
    have hwhole' : ∀ pm' ∈ pms, Whole pm'.item := fun pm' h =>
      hwhole pm' (List.mem_cons_of_mem _ h)
    rw [place]
    rw [refused] at hspace ⊢
    cases halloc : allocate secbus pm.size pm.setupAlign with
    | some r =>
      rw [halloc] at hspace
      dsimp only
      rw [List.filter_cons_of_neg (by simp)]
      exact ih hsound' hwhole' r.2 hpool hspace
    | none =>
      rw [halloc] at hspace
      obtain ⟨hhead, hrest⟩ := List.forall_mem_cons.mp hspace
      obtain ⟨haddr, hpool'⟩ := fallBack_toNat hpool hw.pos hhead.1
      -- the second rounding does nothing, as the first one has aligned the window
      have hsettle : pm.settle sp (sp.fallBack pool pm.size).1 = (sp.fallBack pool pm.size).1 := by
        cases sp with
        | mem =>
          apply hpm.settle_of_dvd
          rw [haddr]
          exact dvd_overflowAt hpm.pow hw.dvd hw.pos n
        | io => rfl
      dsimp only
      rw [List.filter_cons_of_pos rfl, List.map_cons, hsettle, haddr,
        ih hsound' hwhole' secbus hpool' hrest]
      rfl

/-- A window is either among the packed ones or in the overflow area. -/
theorem mem_place (hsound : ∀ pm ∈ pms, pm.Sound) (hwhole : ∀ pm ∈ pms, Whole pm.item)
    {secbus : SecBus} (hmin : secbus.min.toNat ≤ secbus.next.toNat)
    (hnext : secbus.next.toNat ≤ 2 ^ 31) {pool : BitVec 32}
    (hspace : InSpace (sp.overflow pool.toNat (refused secbus pms))) {p : Placed}
    (hp : p ∈ (place sp pms secbus pool).1) :
    (p.address.toNat, p.win.item) ∈ pack secbus.min.toNat (items (granted secbus pms)) ∨
      (p.address.toNat, p.win) ∈ sp.overflow pool.toNat (refused secbus pms) := by
  cases hfell : p.fellBack with
  | true =>
    right
    rw [← filter_refused hsound hwhole secbus (Nat.mod_eq_of_lt pool.isLt).symm hspace]
    exact List.mem_map_of_mem (List.mem_filter.mpr ⟨hp, hfell⟩)
  | false =>
    left
    rw [← (filter_granted hsound hwhole secbus hmin hnext pool).1]
    exact List.mem_map_of_mem (f := fun p : Placed => (p.address.toNat, p.win.item))
      (List.mem_filter.mpr ⟨hp, by simp [hfell]⟩)

/-- The windows of the bus are aligned, and those of bridges end before the last address. -/
theorem place_below (hsound : ∀ pm ∈ pms, pm.Sound) (hwhole : ∀ pm ∈ pms, Whole pm.item)
    {secbus : SecBus} (hmin : secbus.min.toNat ≤ secbus.next.toNat)
    (hnext : secbus.next.toNat ≤ 2 ^ 31) {pool : BitVec 32}
    (hspace : InSpace (sp.overflow pool.toNat (refused secbus pms)))
    (haligned : ∀ x ∈ sp.overflow pool.toNat (refused secbus pms), x.2.align.toNat ∣ x.1) :
    BusBelow (place sp pms secbus pool).1 := by
  have hwin : ∀ p ∈ (place sp pms secbus pool).1, p.win.Sound := by
    intro p hp
    have hmem := List.mem_map_of_mem (f := Placed.win) hp
    rw [place_win] at hmem
    exact hsound _ hmem
  have hpos : ∀ i ∈ items (granted secbus pms), 0 < i.align :=
    items_pos fun pm hpm => hsound pm ((granted_sublist secbus pms).subset hpm)
  have hend := (@filter_granted sp pms hsound hwhole secbus hmin hnext pool).2
  refine ⟨fun p hp => ?_, fun p hp hbridge => ?_⟩
  · rw [(hwin p hp).required_eq]
    rcases mem_place hsound hwhole hmin hnext hspace hp with hown | hfell
    · exact pack_aligned _ _ _ hown
    · exact haligned _ hfell
  · rcases mem_place hsound hwhole hmin hnext hspace hp with hown | hfell
    · have hstop : p.stop ≤ _ := (pack_within hpos _ _ hown).2
      omega
    · exact (hspace _ hfell).2 hbridge

end Place

/-! ## §3 Windows apart -/

/-- Two windows that have no address in common. -/
def Placed.Apart (p q : Placed) : Prop :=
  p.stop ≤ q.address.toNat ∨ q.stop ≤ p.address.toNat

theorem Placed.Apart.symm {p q : Placed} (h : p.Apart q) : q.Apart p := Or.symm h

instance : Std.Symm Placed.Apart := ⟨fun _ _ => Placed.Apart.symm⟩

theorem Placed.Inside.apart {p w q : Placed} (hin : p.Inside w) (h : w.Apart q) : p.Apart q := by
  unfold Placed.Inside at hin
  unfold Placed.Apart at h ⊢
  omega

/-- The windows behind the devices of a bus, from device `k` on, are apart from each other and from
    the windows `ps` of the bus, if they are not inside the window of their bridge. -/
def Layout.Apart (sp : Space) (ps : List Placed) : ℕ → Layout → Prop
  | _, .none => True
  | k, .func next => next.Apart sp ps (k + 1)
  | k, .bridge wins behind next =>
    (∀ p ∈ wins sp ++ behind.all sp, ∀ w ∈ ps,
      p.Apart w ∨ (w.win.device = k ∧ w.win.bridge.isSome ∧ p.Inside w)) ∧
    (∀ p ∈ wins sp ++ behind.all sp, ∀ q ∈ next.all sp, p.Apart q) ∧
    (wins sp).Pairwise Placed.Apart ∧ behind.Apart sp (wins sp) 0 ∧ next.Apart sp ps (k + 1)

/-- All memory windows are apart, but for those of bridges and what they contain, and all windows
    are aligned. -/
structure Setup.WellPlaced (s : Setup) : Prop where
  root : (s.wins .mem).Pairwise Placed.Apart
  behind : s.behind.Apart .mem (s.wins .mem) 0
  aligned : ∀ sp, ∀ p ∈ s.wins sp ++ s.behind.all sp, p.required ∣ p.address.toNat

section Apart

variable {sp : Space} {ps : List Placed} {k : ℕ} {lay : Layout}

theorem Layout.Right.aligned (h : lay.Right sp ps k) :
    ∀ p ∈ lay.all sp, p.required ∣ p.address.toNat := by
  induction lay generalizing ps k with
  | none => simp [Layout.all]
  | func next ih => exact ih h
  | bridge wins behind next ihb ihn =>
    obtain ⟨-, hbus, hbehind, hnext⟩ := h
    intro p hp
    rcases List.mem_append.mp hp with hmem | hmem
    · rcases List.mem_append.mp hmem with hwins | hbelow
      · exact hbus.aligned p hwins
      · exact ihb hbehind p hbelow
    · exact ihn hnext p hmem

/-- What is behind the devices from `k` on is in the windows of these. -/
theorem Layout.Right.inside_from (h : lay.Right sp ps k) :
    ∀ p ∈ lay.all sp, ∃ w ∈ ps, k ≤ w.win.device ∧ p.Inside w := by
  induction lay generalizing k with
  | none => simp [Layout.all]
  | func next ih =>
    intro p hp
    obtain ⟨w, hw, hk, hin⟩ := ih h p hp
    exact ⟨w, hw, by omega, hin⟩
  | bridge wins behind next _ ih =>
    obtain ⟨⟨w, hw, hin⟩, -, -, hnext⟩ := h
    intro p hp
    rcases List.mem_append.mp hp with hmem | hmem
    · exact ⟨w, windowOf_mem hw, (windowOf_bridge hw).1.ge, hin p hmem⟩
    · obtain ⟨v, hv, hk, hpv⟩ := ih hnext p hmem
      exact ⟨v, hv, by omega, hpv⟩

/-- **If all windows behind the devices are right**, they are apart as soon as the windows of the
    bus are. -/
theorem Layout.Right.apart (h : lay.Right sp ps k) (hps : ps.Pairwise Placed.Apart) :
    lay.Apart sp ps k := by
  induction lay generalizing ps k with
  | none => trivial
  | func next ih => exact ih h hps
  | bridge wins behind next ihb ihn =>
    obtain ⟨⟨w, hw, hin⟩, hbus, hbehind, hnext⟩ := h
    obtain ⟨hk, hbridge⟩ := windowOf_bridge hw
    have hother : ∀ v ∈ ps, w ≠ v → w.Apart v := fun v hv hne =>
      hps.forall (windowOf_mem hw) hv hne
    refine ⟨fun p hp v hv => ?_, fun p hp q hq => ?_, hbus.disjoint, ihb hbehind hbus.disjoint,
      ihn hnext hps⟩
    · by_cases hwv : w = v
      · subst hwv
        exact Or.inr ⟨hk, hbridge, hin p hp⟩
      · exact Or.inl ((hin p hp).apart (hother v hv hwv))
    · -- both are inside windows of this bus, of different bridges
      obtain ⟨v, hv, hkv, hqv⟩ := hnext.inside_from q hq
      have hne : w ≠ v := by
        rintro rfl
        omega
      exact (hqv.apart ((hin p hp).apart (hother v hv hne)).symm).symm

end Apart

/-! ## §4 The root bus -/

/-- None of the windows that the root bus is refused, put one after the other from `n` on, meets
    the addresses that it has handed out. -/
def OverflowClear (secbus : SecBus) (n : ℕ) (pms : List PciWin) : Prop :=
  let own := items (granted secbus pms)
  let start := packStart secbus.min.toNat own
  ∀ x ∈ Space.mem.overflow n (refused secbus pms),
    total own = 0 ∨ x.1 + x.2.size.toNat ≤ start ∨ start + total own ≤ x.1

instance (secbus : SecBus) (n : ℕ) (pms : List PciWin) : Decidable (OverflowClear secbus n pms) :=
  inferInstanceAs (Decidable (∀ x ∈ _, _))

section Root

variable {pms : List PciWin} {secbus : SecBus} {pool : BitVec 32}

/-- **The windows of the root bus are apart** exactly when the overflow area keeps clear of what
    was handed out. -/
theorem place_apart_iff (hsound : ∀ pm ∈ pms, pm.Sound) (hwhole : ∀ pm ∈ pms, Whole pm.item)
    (htight : Tight (items pms)) (hmin : secbus.min.toNat ≤ secbus.next.toNat)
    (hnext : secbus.next.toNat ≤ 2 ^ 31)
    (hspace : InSpace (Space.mem.overflow pool.toNat (refused secbus pms))) :
    (place .mem pms secbus pool).1.Pairwise Placed.Apart ↔
      OverflowClear secbus pool.toNat pms := by
  have hgranted := (@filter_granted .mem pms hsound hwhole secbus hmin hnext pool).1
  have hrefused := filter_refused hsound hwhole secbus (Nat.mod_eq_of_lt pool.isLt).symm hspace
  have hown : Tight (items (granted secbus pms)) :=
    htight.sublist ((granted_sublist secbus pms).map PciWin.item)
  have hownSize : ∀ i ∈ items (granted secbus pms), 0 < i.size := by
    intro i hi
    obtain ⟨pm, hpm, rfl⟩ := List.mem_map.mp hi
    exact (hwhole pm ((granted_sublist secbus pms).subset hpm)).pos
  have hsize : ∀ pm ∈ refused secbus pms, 0 < pm.size.toNat := fun pm hpm =>
    (hwhole pm ((refused_sublist secbus pms).subset hpm)).pos
  -- each kind for itself is apart
  have hapart₁ : ((place .mem pms secbus pool).1.filter fun p => p.fellBack).Pairwise
      Placed.Apart := by
    have hdisj := @overflow_disjoint .mem _ hsize pool.toNat
    rw [← hrefused, List.pairwise_map] at hdisj
    exact hdisj.imp Or.inl
  have hapart₂ : ((place .mem pms secbus pool).1.filter fun p => !p.fellBack).Pairwise
      Placed.Apart := by
    have hdisj := pack_disjoint hown.pos secbus.min.toNat
    rw [← hgranted, List.pairwise_map] at hdisj
    exact hdisj.imp Or.inl
  rw [← List.Perm.pairwise_iff Placed.Apart.symm
    (List.filter_append_perm (fun p => p.fellBack) (place .mem pms secbus pool).1),
    List.pairwise_append, OverflowClear]
  -- and a refused window is apart from all granted ones if it is outside their area
  have hcross : (∀ p ∈ (place .mem pms secbus pool).1.filter (fun p => p.fellBack),
      ∀ q ∈ (place .mem pms secbus pool).1.filter (fun p => !p.fellBack), p.Apart q) ↔
      ∀ x ∈ Space.mem.overflow pool.toNat (refused secbus pms),
        ∀ y ∈ pack secbus.min.toNat (items (granted secbus pms)),
          x.1 + x.2.size.toNat ≤ y.1 ∨ y.1 + y.2.size ≤ x.1 := by
    rw [← hrefused, ← hgranted]
    simp only [List.forall_mem_map]
    rfl
  rw [hcross]
  constructor
  · rintro ⟨-, -, hclear⟩ x hx
    apply (hown.apart_iff hownSize (hown.dvd_packStart _) (hsize x.2 (overflow_mem x hx))).mp
    rw [pack_packStart hown.pos]
    exact hclear x hx
  · intro hclear
    refine ⟨hapart₁, hapart₂, fun x hx => ?_⟩
    rw [← pack_packStart hown.pos]
    exact (hown.apart_iff hownSize (hown.dvd_packStart _)
      (hsize x.2 (overflow_mem x hx))).mpr (hclear x hx)

/-- An overflow area behind the addresses of the bus keeps clear of all of them. -/
theorem overflowClear_of_behind (hsound : ∀ pm ∈ pms, pm.Sound)
    (hwhole : ∀ pm ∈ pms, Whole pm.item) (htight : Tight (items pms))
    (hmin : secbus.min.toNat ≤ secbus.next.toNat) (hnext : secbus.next.toNat ≤ 2 ^ 31) {n : ℕ}
    (hn : secbus.next.toNat ≤ n) : OverflowClear secbus n pms := by
  have hown : Tight (items (granted secbus pms)) :=
    htight.sublist ((granted_sublist secbus pms).map PciWin.item)
  have hend := (@filter_granted .mem pms hsound hwhole secbus hmin hnext 0).2
  rw [← packEnd_packStart hown.pos, packEnd_of_dvd hown (hown.dvd_packStart _)] at hend
  intro x hx
  have hx' := overflow_le (fun pm hpm =>
    (hwhole pm ((refused_sublist secbus pms).subset hpm)).pos) n x hx
  exact Or.inr (Or.inr (Nat.le_trans hend (Nat.le_trans hn hx')))

end Root

theorem hwinitWindows_le (pciProbeOnly : Bool) (sp : Space) :
    ((hwinitWindows pciProbeOnly).secbus sp).min.toNat ≤
      ((hwinitWindows pciProbeOnly).secbus sp).next.toNat := by
  cases sp <;> cases pciProbeOnly <;> decide

/-- Without `pci_probe_only` the addresses of the root bus end before the overflow area starts. -/
theorem overflowClear_low (t : Bus Func) (hbars : t.BarsPowTwo) (hroomy : t.Roomy .mem) :
    OverflowClear ((hwinitWindows false).secbus .mem) (bigAddress .mem).toNat
      (rootRequests t .mem) :=
  overflowClear_of_behind (fun pm hpm => busWindows_sound true hbars pm (mem_query.mp hpm))
    (fun pm hpm => whole_busWindows true hbars hroomy pm (mem_query.mp hpm))
    (tight_of_roomy hbars hroomy) (hwinitWindows_le false .mem) ((hwinitWindows false).half .mem)
    (by decide)

/-- **The windows of all buses, with the overflow area.**  As long as every bridge has room for what
    is behind it, and the windows that the root bus is refused end within the address space, the
    memory windows are apart and all windows are aligned exactly when the refused memory windows
    keep clear of those that the root bus has handed out. -/
theorem setupWindows_overflow (pciProbeOnly : Bool) (t : Bus Func) (hbars : t.BarsPowTwo)
    (hroomy : ∀ sp, t.Roomy sp)
    (hspace : ∀ sp : Space, InSpace (sp.overflow (bigAddress sp).toNat
      (refused ((hwinitWindows pciProbeOnly).secbus sp) (rootRequests t sp)))) :
    (setupWindows (hwinitWindows pciProbeOnly).secbus bigAddress t).WellPlaced ↔
      OverflowClear ((hwinitWindows pciProbeOnly).secbus .mem) (bigAddress .mem).toNat
        (rootRequests t .mem) := by
  have hsound : ∀ sp, ∀ pm ∈ rootRequests t sp, pm.Sound := fun sp pm hpm =>
    busWindows_sound true hbars pm (mem_query.mp hpm)
  have hwhole : ∀ sp, ∀ pm ∈ rootRequests t sp, Whole pm.item := fun sp pm hpm =>
    whole_busWindows true hbars (hroomy sp) pm (mem_query.mp hpm)
  have htight : ∀ sp, Tight (items (rootRequests t sp)) := fun sp =>
    tight_of_roomy hbars (hroomy sp)
  have hroot := place_apart_iff (hsound .mem) (hwhole .mem) (htight .mem)
    (hwinitWindows_le pciProbeOnly .mem) ((hwinitWindows pciProbeOnly).half .mem) (hspace .mem)
  have haligned : ∀ sp : Space, ∀ x ∈ sp.overflow (bigAddress sp).toNat
      (refused ((hwinitWindows pciProbeOnly).secbus sp) (rootRequests t sp)),
      x.2.align.toNat ∣ x.1 := by
    intro sp
    have hsub := refused_sublist ((hwinitWindows pciProbeOnly).secbus sp) (rootRequests t sp)
    cases sp with
    | mem => exact overflow_mem_aligned (fun pm hpm => hwhole .mem pm (hsub.subset hpm)) _
    | io =>
      -- the pool starts at a multiple of every alignment that an i/o window can have
      refine overflow_io_aligned ((htight .io).sublist (hsub.map PciWin.item)) fun pm hpm => ?_
      have hmem := hsub.subset hpm
      exact (hsound .io pm hmem).pow.dvd_of_le (b := bigAddress .io) ⟨16, rfl⟩
        (busWindows_io_align true pm (mem_query.mp hmem))
  have hbelow : ∀ sp, BusBelow ((setupWindows (hwinitWindows pciProbeOnly).secbus bigAddress
      t).wins sp) := fun sp =>
    place_below (hsound sp) (hwhole sp) (hwinitWindows_le pciProbeOnly sp)
      ((hwinitWindows pciProbeOnly).half sp) (hspace sp) (haligned sp)
  have hbehind : ∀ sp, (setupWindows (hwinitWindows pciProbeOnly).secbus bigAddress t).behind.Right
      sp ((setupWindows (hwinitWindows pciProbeOnly).secbus bigAddress t).wins sp) 0 := by
    intro sp
    refine right_of_roomy t hbars (hroomy sp) 0 (fun _ => []) _ _ ⟨[], ?_, by simp⟩ (hbelow sp)
    rw [setupWindows, place_win]
    exact query_perm sp true 0 t fun _ => []
  constructor
  · intro h
    exact hroot.mp h.root
  · intro hclear
    have hpair := hroot.mpr hclear
    refine ⟨hpair, (hbehind .mem).apart hpair, fun sp p hp => ?_⟩
    rcases List.mem_append.mp hp with hmem | hmem
    · exact (hbelow sp).aligned p hmem
    · exact (hbehind sp).aligned p hmem

/-! ## §5 A card of 1 GB -/

/-- Two bridges, each with a device behind it that has one memory window. -/
def twoCards (mask : BitVec 32) : Bus Func :=
  .bridge 9 0 0#32 (.func 0 0 ⟨false, fun reg => if reg = 0x10 then mask else 0#32⟩ .none)
    (.bridge 10 0 0#32
      (.func 0 0 ⟨false, fun reg => if reg = 0x10 then 0xfff00000#32 else 0#32⟩ .none) .none)

/-- A window of 1 GB is refused and gets the addresses from 0x40000000 to 0x80000000; that of the
    other bridge, at 0x40100000, is in the middle of them. -/
theorem largeCard_overlap :
    ¬ (setupWindows (hwinitWindows true).secbus bigAddress (twoCards 0xc0000000)).WellPlaced := by
  intro h
  have hwins : ((setupWindows (hwinitWindows true).secbus bigAddress (twoCards 0xc0000000)).wins
      .mem).map (fun p => (p.address.toNat, p.stop)) =
      [(0x40000000, 0x80000000), (0x40100000, 0x40200000)] := by decide
  have hpair : (((setupWindows (hwinitWindows true).secbus bigAddress (twoCards 0xc0000000)).wins
      .mem).map (fun p => (p.address.toNat, p.stop))).Pairwise
        (fun x y => x.2 ≤ y.1 ∨ y.2 ≤ x.1) := List.pairwise_map.mpr h.root
  rw [hwins] at hpair
  revert hpair
  decide

theorem twoCards_barsPowTwo : (twoCards 0xe0000000).BarsPowTwo := by
  refine ⟨⟨?_, trivial⟩, ⟨?_, trivial⟩, trivial⟩
  · simp [Func.probe, probeBars, probeRom, mapregRom, PowTwo]
    exact ⟨29, rfl⟩
  · simp [Func.probe, probeBars, probeRom, mapregRom, PowTwo]
    exact ⟨20, rfl⟩

theorem twoCards_roomy (sp : Space) : (twoCards 0xe0000000).Roomy sp := by
  refine ⟨⟨?_, ?_⟩, trivial, ⟨?_, ?_⟩, trivial, trivial⟩ <;> cases sp <;> decide

/-- With 512 MB the window of the other bridge is the one that is refused, and has its place. -/
theorem setupWindows_overflow_halfCard :
    (setupWindows (hwinitWindows true).secbus bigAddress (twoCards 0xe0000000)).WellPlaced ∧
      refused ((hwinitWindows true).secbus .mem) (rootRequests (twoCards 0xe0000000) .mem) ≠ [] :=
  ⟨(setupWindows_overflow true (twoCards 0xe0000000) twoCards_barsPowTwo twoCards_roomy
    (fun sp => by cases sp <;> decide)).mpr (by decide), by
    have hlen : (refused ((hwinitWindows true).secbus .mem)
        (rootRequests (twoCards 0xe0000000) .mem)).length = 1 := by decide
    intro hnil
    rw [hnil] at hlen
    exact absurd hlen (by decide)⟩

end Pmon.Pci
